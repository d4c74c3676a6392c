import ActionCode.Table

/-!
# Opcodes

The instruction set: the byte of every opcode, its mnemonic, and the layout of the operands
that follow it. Reading, writing and printing an instruction all go by its layout.
-/

namespace ActionCode

-- ---------------------------------------------------------------------------
-- Layouts
-- ---------------------------------------------------------------------------

/-- The forms of an operand whose written form does not depend on its address. -/
inductive Operand
  | byte
  /-- A plain number, such as a register or a count of arguments. -/
  | number
  /-- A position in a table. -/
  | entry (table : Table)
  deriving DecidableEq, Repr

/-- What follows an opcode. -/
inductive Layout
  /-- Operands with their names, in order. -/
  | fixed (operands : List (String × Operand))
  /-- One branch target, written relative to the end of the instruction. -/
  | branch
  /-- A default target and a list of cases, written relative to the opcode. -/
  | switch
  deriving DecidableEq, Repr

-- ---------------------------------------------------------------------------
-- Opcodes
-- ---------------------------------------------------------------------------

inductive Opcode
  | bkpt | nop | throw | getsuper | setsuper | dxns | dxnslate | kill | label | ifnlt | ifnle
  | ifngt | ifnge | jump | iftrue | iffalse | ifeq | ifne | iflt | ifle | ifgt | ifge
  | ifstricteq | ifstrictne | lookupswitch | pushwith | popscope | nextname | hasnext
  | pushnull | pushundefined | nextvalue | pushbyte | pushshort | pushtrue | pushfalse
  | pushnan | pop | dup | swap | pushstring | pushint | pushuint | pushdouble | pushscope
  | pushnamespace | hasnext2 | li8 | li16 | li32 | lf32 | lf64 | si8 | si16 | si32 | sf32
  | sf64 | newfunction | call | construct | callmethod | callstatic | callsuper | callproperty
  | returnvoid | returnvalue | constructsuper | constructprop | callproplex | callsupervoid
  | callpropvoid | sxi1 | sxi8 | sxi16 | applytype | newobject | newarray | newactivation
  | newclass | getdescendants | newcatch | findpropstrict | findproperty | finddef | getlex
  | setproperty | getlocal | setlocal | getglobalscope | getscopeobject | getproperty
  | getouterscope | initproperty | deleteproperty | getslot | setslot | getglobalslot
  | setglobalslot | convert_s | esc_xelem | esc_xattr | convert_i | convert_u | convert_d
  | convert_b | convert_o | checkfilter | coerce | coerce_b | coerce_a | coerce_i | coerce_d
  | coerce_s | astype | astypelate | coerce_u | coerce_o | negate | increment | inclocal
  | decrement | declocal | typeof | not_ | bitnot | add | subtract | multiply | divide | modulo
  | lshift | rshift | urshift | bitand | bitor | bitxor | equals | strictequals | lessthan
  | lessequals | greaterthan | greaterequals | instanceof | istype | istypelate | in_
  | increment_i | decrement_i | inclocal_i | declocal_i | negate_i | add_i | subtract_i
  | multiply_i | getlocal0 | getlocal1 | getlocal2 | getlocal3 | setlocal0 | setlocal1
  | setlocal2 | setlocal3 | debug | debugline | debugfile | bkptline | timestamp
  deriving DecidableEq, Repr

namespace Opcode

/-- A row of the instruction set. -/
structure Row where
  code : UInt8
  mnemonic : String
  layout : Layout

def row : Opcode → Row
  | bkpt => ⟨0x01, "bkpt", .fixed []⟩
  | nop => ⟨0x02, "nop", .fixed []⟩
  | throw => ⟨0x03, "throw", .fixed []⟩
  | getsuper => ⟨0x04, "getsuper", .fixed [("multiname", .entry .multinames)]⟩
  | setsuper => ⟨0x05, "setsuper", .fixed [("multiname", .entry .multinames)]⟩
  | dxns => ⟨0x06, "dxns", .fixed [("index", .entry .strings)]⟩
  | dxnslate => ⟨0x07, "dxnslate", .fixed []⟩
  | kill => ⟨0x08, "kill", .fixed [("argument", .number)]⟩
  | label => ⟨0x09, "label", .fixed []⟩
  | ifnlt => ⟨0x0C, "ifnlt", .branch⟩
  | ifnle => ⟨0x0D, "ifnle", .branch⟩
  | ifngt => ⟨0x0E, "ifngt", .branch⟩
  | ifnge => ⟨0x0F, "ifnge", .branch⟩
  | jump => ⟨0x10, "jump", .branch⟩
  | iftrue => ⟨0x11, "iftrue", .branch⟩
  | iffalse => ⟨0x12, "iffalse", .branch⟩
  | ifeq => ⟨0x13, "ifeq", .branch⟩
  | ifne => ⟨0x14, "ifne", .branch⟩
  | iflt => ⟨0x15, "iflt", .branch⟩
  | ifle => ⟨0x16, "ifle", .branch⟩
  | ifgt => ⟨0x17, "ifgt", .branch⟩
  | ifge => ⟨0x18, "ifge", .branch⟩
  | ifstricteq => ⟨0x19, "ifstricteq", .branch⟩
  | ifstrictne => ⟨0x1A, "ifstrictne", .branch⟩
  | lookupswitch => ⟨0x1B, "lookupswitch", .switch⟩
  | pushwith => ⟨0x1C, "pushwith", .fixed []⟩
  | popscope => ⟨0x1D, "popscope", .fixed []⟩
  | nextname => ⟨0x1E, "nextname", .fixed []⟩
  | hasnext => ⟨0x1F, "hasnext", .fixed []⟩
  | pushnull => ⟨0x20, "pushnull", .fixed []⟩
  | pushundefined => ⟨0x21, "pushundefined", .fixed []⟩
  | nextvalue => ⟨0x23, "nextvalue", .fixed []⟩
  | pushbyte => ⟨0x24, "pushbyte", .fixed [("argument", .byte)]⟩
  | pushshort => ⟨0x25, "pushshort", .fixed [("argument", .number)]⟩
  | pushtrue => ⟨0x26, "pushtrue", .fixed []⟩
  | pushfalse => ⟨0x27, "pushfalse", .fixed []⟩
  | pushnan => ⟨0x28, "pushnan", .fixed []⟩
  | pop => ⟨0x29, "pop", .fixed []⟩
  | dup => ⟨0x2A, "dup", .fixed []⟩
  | swap => ⟨0x2B, "swap", .fixed []⟩
  | pushstring => ⟨0x2C, "pushstring", .fixed [("index", .entry .strings)]⟩
  | pushint => ⟨0x2D, "pushint", .fixed [("index", .entry .ints)]⟩
  | pushuint => ⟨0x2E, "pushuint", .fixed [("index", .entry .uints)]⟩
  | pushdouble => ⟨0x2F, "pushdouble", .fixed [("index", .entry .doubles)]⟩
  | pushscope => ⟨0x30, "pushscope", .fixed []⟩
  | pushnamespace => ⟨0x31, "pushnamespace", .fixed [("index", .entry .namespaces)]⟩
  | hasnext2 => ⟨0x32, "hasnext2", .fixed [("object_register", .number), ("index_register", .number)]⟩
  | li8 => ⟨0x35, "li8", .fixed []⟩
  | li16 => ⟨0x36, "li16", .fixed []⟩
  | li32 => ⟨0x37, "li32", .fixed []⟩
  | lf32 => ⟨0x38, "lf32", .fixed []⟩
  | lf64 => ⟨0x39, "lf64", .fixed []⟩
  | si8 => ⟨0x3A, "si8", .fixed []⟩
  | si16 => ⟨0x3B, "si16", .fixed []⟩
  | si32 => ⟨0x3C, "si32", .fixed []⟩
  | sf32 => ⟨0x3D, "sf32", .fixed []⟩
  | sf64 => ⟨0x3E, "sf64", .fixed []⟩
  | newfunction => ⟨0x40, "newfunction", .fixed [("method", .entry .methods)]⟩
  | call => ⟨0x41, "call", .fixed [("num_args", .number)]⟩
  | construct => ⟨0x42, "construct", .fixed [("num_args", .number)]⟩
  | callmethod => ⟨0x43, "callmethod", .fixed [("disp_id", .number), ("num_args", .number)]⟩
  | callstatic => ⟨0x44, "callstatic", .fixed [("method", .entry .methods), ("num_args", .number)]⟩
  | callsuper => ⟨0x45, "callsuper", .fixed [("multiname", .entry .multinames), ("num_args", .number)]⟩
  | callproperty => ⟨0x46, "callproperty", .fixed [("multiname", .entry .multinames), ("num_args", .number)]⟩
  | returnvoid => ⟨0x47, "returnvoid", .fixed []⟩
  | returnvalue => ⟨0x48, "returnvalue", .fixed []⟩
  | constructsuper => ⟨0x49, "constructsuper", .fixed [("num_args", .number)]⟩
  | constructprop => ⟨0x4A, "constructprop", .fixed [("multiname", .entry .multinames), ("num_args", .number)]⟩
  | callproplex => ⟨0x4C, "callproplex", .fixed [("multiname", .entry .multinames), ("num_args", .number)]⟩
  | callsupervoid => ⟨0x4E, "callsupervoid", .fixed [("multiname", .entry .multinames), ("num_args", .number)]⟩
  | callpropvoid => ⟨0x4F, "callpropvoid", .fixed [("multiname", .entry .multinames), ("num_args", .number)]⟩
  | sxi1 => ⟨0x50, "sxi1", .fixed []⟩
  | sxi8 => ⟨0x51, "sxi8", .fixed []⟩
  | sxi16 => ⟨0x52, "sxi16", .fixed []⟩
  | applytype => ⟨0x53, "applytype", .fixed [("num_args", .number)]⟩
  | newobject => ⟨0x55, "newobject", .fixed [("num_args", .number)]⟩
  | newarray => ⟨0x56, "newarray", .fixed [("num_args", .number)]⟩
  | newactivation => ⟨0x57, "newactivation", .fixed []⟩
  | newclass => ⟨0x58, "newclass", .fixed [("cls", .entry .classes)]⟩
  | getdescendants => ⟨0x59, "getdescendants", .fixed [("multiname", .entry .multinames)]⟩
  | newcatch => ⟨0x5A, "newcatch", .fixed [("exception", .entry .handlers)]⟩
  | findpropstrict => ⟨0x5D, "findpropstrict", .fixed [("multiname", .entry .multinames)]⟩
  | findproperty => ⟨0x5E, "findproperty", .fixed [("multiname", .entry .multinames)]⟩
  | finddef => ⟨0x5F, "finddef", .fixed [("multiname", .entry .multinames)]⟩
  | getlex => ⟨0x60, "getlex", .fixed [("multiname", .entry .multinames)]⟩
  | setproperty => ⟨0x61, "setproperty", .fixed [("multiname", .entry .multinames)]⟩
  | getlocal => ⟨0x62, "getlocal", .fixed [("argument", .number)]⟩
  | setlocal => ⟨0x63, "setlocal", .fixed [("argument", .number)]⟩
  | getglobalscope => ⟨0x64, "getglobalscope", .fixed []⟩
  | getscopeobject => ⟨0x65, "getscopeobject", .fixed [("argument", .byte)]⟩
  | getproperty => ⟨0x66, "getproperty", .fixed [("multiname", .entry .multinames)]⟩
  | getouterscope => ⟨0x67, "getouterscope", .fixed [("argument", .number)]⟩
  | initproperty => ⟨0x68, "initproperty", .fixed [("multiname", .entry .multinames)]⟩
  | deleteproperty => ⟨0x6A, "deleteproperty", .fixed [("multiname", .entry .multinames)]⟩
  | getslot => ⟨0x6C, "getslot", .fixed [("argument", .number)]⟩
  | setslot => ⟨0x6D, "setslot", .fixed [("argument", .number)]⟩
  | getglobalslot => ⟨0x6E, "getglobalslot", .fixed [("argument", .number)]⟩
  | setglobalslot => ⟨0x6F, "setglobalslot", .fixed [("argument", .number)]⟩
  | convert_s => ⟨0x70, "convert_s", .fixed []⟩
  | esc_xelem => ⟨0x71, "esc_xelem", .fixed []⟩
  | esc_xattr => ⟨0x72, "esc_xattr", .fixed []⟩
  | convert_i => ⟨0x73, "convert_i", .fixed []⟩
  | convert_u => ⟨0x74, "convert_u", .fixed []⟩
  | convert_d => ⟨0x75, "convert_d", .fixed []⟩
  | convert_b => ⟨0x76, "convert_b", .fixed []⟩
  | convert_o => ⟨0x77, "convert_o", .fixed []⟩
  | checkfilter => ⟨0x78, "checkfilter", .fixed []⟩
  | coerce => ⟨0x80, "coerce", .fixed [("multiname", .entry .multinames)]⟩
  | coerce_b => ⟨0x81, "coerce_b", .fixed []⟩
  | coerce_a => ⟨0x82, "coerce_a", .fixed []⟩
  | coerce_i => ⟨0x83, "coerce_i", .fixed []⟩
  | coerce_d => ⟨0x84, "coerce_d", .fixed []⟩
  | coerce_s => ⟨0x85, "coerce_s", .fixed []⟩
  | astype => ⟨0x86, "astype", .fixed [("multiname", .entry .multinames)]⟩
  | astypelate => ⟨0x87, "astypelate", .fixed []⟩
  | coerce_u => ⟨0x88, "coerce_u", .fixed []⟩
  | coerce_o => ⟨0x89, "coerce_o", .fixed []⟩
  | negate => ⟨0x90, "negate", .fixed []⟩
  | increment => ⟨0x91, "increment", .fixed []⟩
  | inclocal => ⟨0x92, "inclocal", .fixed [("argument", .number)]⟩
  | decrement => ⟨0x93, "decrement", .fixed []⟩
  | declocal => ⟨0x94, "declocal", .fixed [("argument", .number)]⟩
  | typeof => ⟨0x95, "typeof", .fixed []⟩
  | not_ => ⟨0x96, "not", .fixed []⟩
  | bitnot => ⟨0x97, "bitnot", .fixed []⟩
  | add => ⟨0xA0, "add", .fixed []⟩
  | subtract => ⟨0xA1, "subtract", .fixed []⟩
  | multiply => ⟨0xA2, "multiply", .fixed []⟩
  | divide => ⟨0xA3, "divide", .fixed []⟩
  | modulo => ⟨0xA4, "modulo", .fixed []⟩
  | lshift => ⟨0xA5, "lshift", .fixed []⟩
  | rshift => ⟨0xA6, "rshift", .fixed []⟩
  | urshift => ⟨0xA7, "urshift", .fixed []⟩
  | bitand => ⟨0xA8, "bitand", .fixed []⟩
  | bitor => ⟨0xA9, "bitor", .fixed []⟩
  | bitxor => ⟨0xAA, "bitxor", .fixed []⟩
  | equals => ⟨0xAB, "equals", .fixed []⟩
  | strictequals => ⟨0xAC, "strictequals", .fixed []⟩
  | lessthan => ⟨0xAD, "lessthan", .fixed []⟩
  | lessequals => ⟨0xAE, "lessequals", .fixed []⟩
  | greaterthan => ⟨0xAF, "greaterthan", .fixed []⟩
  | greaterequals => ⟨0xB0, "greaterequals", .fixed []⟩
  | instanceof => ⟨0xB1, "instanceof", .fixed []⟩
  | istype => ⟨0xB2, "istype", .fixed [("multiname", .entry .multinames)]⟩
  | istypelate => ⟨0xB3, "istypelate", .fixed []⟩
  | in_ => ⟨0xB4, "in", .fixed []⟩
  | increment_i => ⟨0xC0, "increment_i", .fixed []⟩
  | decrement_i => ⟨0xC1, "decrement_i", .fixed []⟩
  | inclocal_i => ⟨0xC2, "inclocal_i", .fixed [("argument", .number)]⟩
  | declocal_i => ⟨0xC3, "declocal_i", .fixed [("argument", .number)]⟩
  | negate_i => ⟨0xC4, "negate_i", .fixed []⟩
  | add_i => ⟨0xC5, "add_i", .fixed []⟩
  | subtract_i => ⟨0xC6, "subtract_i", .fixed []⟩
  | multiply_i => ⟨0xC7, "multiply_i", .fixed []⟩
  | getlocal0 => ⟨0xD0, "getlocal0", .fixed []⟩
  | getlocal1 => ⟨0xD1, "getlocal1", .fixed []⟩
  | getlocal2 => ⟨0xD2, "getlocal2", .fixed []⟩
  | getlocal3 => ⟨0xD3, "getlocal3", .fixed []⟩
  | setlocal0 => ⟨0xD4, "setlocal0", .fixed []⟩
  | setlocal1 => ⟨0xD5, "setlocal1", .fixed []⟩
  | setlocal2 => ⟨0xD6, "setlocal2", .fixed []⟩
  | setlocal3 => ⟨0xD7, "setlocal3", .fixed []⟩
  | debug => ⟨0xEF, "debug", .fixed [("debug_type", .byte), ("register_name", .entry .strings),
      ("register", .byte), ("extra", .number)]⟩
  | debugline => ⟨0xF0, "debugline", .fixed [("line", .number)]⟩
  | debugfile => ⟨0xF1, "debugfile", .fixed [("filename", .entry .strings)]⟩
  | bkptline => ⟨0xF2, "bkptline", .fixed [("line", .number)]⟩
  | timestamp => ⟨0xF3, "timestamp", .fixed []⟩

/-- The byte of an opcode. -/
def code (op : Opcode) : UInt8 := op.row.code

def mnemonic (op : Opcode) : String := op.row.mnemonic

def layout (op : Opcode) : Layout := op.row.layout

/-- Every opcode once, by its byte. -/
def all : List Opcode := [
  bkpt, nop, throw, getsuper, setsuper, dxns, dxnslate, kill, label, ifnlt, ifnle, ifngt,
  ifnge, jump, iftrue, iffalse, ifeq, ifne, iflt, ifle, ifgt, ifge, ifstricteq, ifstrictne,
  lookupswitch, pushwith, popscope, nextname, hasnext, pushnull, pushundefined, nextvalue,
  pushbyte, pushshort, pushtrue, pushfalse, pushnan, pop, dup, swap, pushstring, pushint,
  pushuint, pushdouble, pushscope, pushnamespace, hasnext2, li8, li16, li32, lf32, lf64, si8,
  si16, si32, sf32, sf64, newfunction, call, construct, callmethod, callstatic, callsuper,
  callproperty, returnvoid, returnvalue, constructsuper, constructprop, callproplex,
  callsupervoid, callpropvoid, sxi1, sxi8, sxi16, applytype, newobject, newarray,
  newactivation, newclass, getdescendants, newcatch, findpropstrict, findproperty, finddef,
  getlex, setproperty, getlocal, setlocal, getglobalscope, getscopeobject, getproperty,
  getouterscope, initproperty, deleteproperty, getslot, setslot, getglobalslot, setglobalslot,
  convert_s, esc_xelem, esc_xattr, convert_i, convert_u, convert_d, convert_b, convert_o,
  checkfilter, coerce, coerce_b, coerce_a, coerce_i, coerce_d, coerce_s, astype, astypelate,
  coerce_u, coerce_o, negate, increment, inclocal, decrement, declocal, typeof, not_, bitnot,
  add, subtract, multiply, divide, modulo, lshift, rshift, urshift, bitand, bitor, bitxor,
  equals, strictequals, lessthan, lessequals, greaterthan, greaterequals, instanceof, istype,
  istypelate, in_, increment_i, decrement_i, inclocal_i, declocal_i, negate_i, add_i,
  subtract_i, multiply_i, getlocal0, getlocal1, getlocal2, getlocal3, setlocal0, setlocal1,
  setlocal2, setlocal3, debug, debugline, debugfile, bkptline, timestamp]

theorem mem_all (op : Opcode) : op ∈ all := by
  cases op <;> decide +kernel

/-- The opcode of a byte. -/
def ofCode? (code : UInt8) : Option Opcode := all.find? (·.code = code)

/-- The opcode of a mnemonic. -/
def ofMnemonic? (mnemonic : String) : Option Opcode := all.find? (·.mnemonic = mnemonic)

theorem code_of_ofCode? {b : UInt8} {op : Opcode} (h : ofCode? b = some op) : op.code = b := by
  simpa using List.find?_some h

theorem ofCode?_code (op : Opcode) : ofCode? op.code = some op := by
  have every : ∀ op ∈ all, ofCode? op.code = some op := by decide +kernel
  exact every op op.mem_all

end Opcode

end ActionCode
