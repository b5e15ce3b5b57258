import GoIpc.Lib.Layout
import GoIpc.Schema.Names

namespace GoIpc.Schema

open GoIpc.Lib

/-!
# Checking a schema

`check` validates names and types, orders the messages so that each comes after the messages it
contains, and lays out the fixed section of every message in that order.

* `Elem`, `Laid`, `Fields` — the types of a checked schema.  A reference has become the message it
  refers to, so a message is a tree; an array has scalars or messages as elements, and only the
  outermost message has string and bytes fields;
* `typeProblems`, `visit`, `layout` — the parts of `Check` after `names`;
* `check` — `Check`.

A message is known by its place in the schema.
-/

/-! ### Checked types -/

/-- The size of a scalar in bytes, which is also its alignment. -/
def Scalar.size : Scalar → Nat
  | .u16 | .i16 => 2
  | .u32 | .i32 | .f32 => 4
  | .u64 | .i64 | .f64 => 8
  | .bool | .u8 | .i8 => 1

inductive VarKind
  | string
  | bytes
deriving DecidableEq

mutual

/-- A scalar or a fixed message. -/
inductive Elem
  | scalar (kind : Scalar)
  | ref (msg : Laid)

/-- A message with its layout. -/
inductive Laid
  | mk (name : String) (fields : Fields) (fixedSize align : Nat)

/-- The fields of a message; fixed ones with their offset. -/
inductive Fields
  | nil
  | one (name : String) (elem : Elem) (offset : Nat) (rest : Fields)
  | array (name : String) (len : Nat) (elem : Elem) (offset : Nat) (rest : Fields)
  | var (name : String) (kind : VarKind) (rest : Fields)

end

deriving instance DecidableEq for Elem, Laid, Fields

namespace Laid

def name : Laid → String
  | .mk n _ _ _ => n

def fields : Laid → Fields
  | .mk _ fs _ _ => fs

def fixedSize : Laid → Nat
  | .mk _ _ size _ => size

def align : Laid → Nat
  | .mk _ _ _ a => a

end Laid

/-- `Type.Size` -/
def Elem.size : Elem → Nat
  | .scalar kind => kind.size
  | .ref msg => msg.fixedSize

/-- `Type.Align` -/
def Elem.align : Elem → Nat
  | .scalar kind => kind.size
  | .ref msg => msg.align

/-! ### Types -/

def Ty.isVar : Ty → Bool
  | .string _ | .bytes _ => true
  | _ => false

def Ty.pos : Ty → Pos
  | .scalar _ pos | .string pos | .bytes pos | .array _ _ pos | .ref _ pos => pos

/-- The type in schema spelling. -/
def Ty.spelling : Ty → String
  | .scalar kind _ => ((scalarNames.find? (fun p => p.2 = kind)).map Prod.fst).getD ""
  | .string _ => "string"
  | .bytes _ => "bytes"
  | .array len elem _ => "[" ++ Nat.repr len ++ "]" ++ elem.spelling
  | .ref name _ => name

/-- Whether a message has no string or bytes field. -/
def Message.fixed (m : Message) : Bool := !m.fields.any (fun f => f.type.isVar)

section

variable (s : Schema)

set_option linter.dupNamespace false in
/-- Whether `name` refers to a message with a string or bytes field. -/
def Schema.notFixed (name : String) : Bool :=
  match (s.lookup name).bind (fun i => s.messages[i]?) with
  | some m => !m.fixed
  | none => false

def resolveRef (name : String) (pos : Pos) : List Problem :=
  if (s.lookup name).isNone then [⟨pos, .unknownType name⟩] else []

/-- `resolve` -/
def resolve : Ty → List Problem
  | .ref name pos => resolveRef s name pos
  | .array len elem pos =>
      (if len < 1 then [⟨pos, .arrayEmpty⟩] else []) ++
      match elem with
      | .string p | .bytes p | .array _ _ p => [⟨p, .arrayElement elem.spelling⟩]
      | .ref name p =>
          resolveRef s name p ++ if s.notFixed name then [⟨p, .elementNotFixed name⟩] else []
      | .scalar _ _ => []
  | _ => []

/-- `types` -/
def typeProblems : List Problem :=
  s.messages.flatMap fun m => m.fields.flatMap fun f =>
    resolve s f.type ++
    match f.type with
    | .ref name pos => if s.notFixed name then [⟨pos, .fieldNotFixed f.name name⟩] else []
    | _ => []

/-! ### The order of the messages -/

/-- The message that a field type contains. -/
def refOf : Ty → Option Nat
  | .ref name _ => s.lookup name
  | .array _ (.ref name _) _ => s.lookup name
  | _ => none

/-- The messages that message `i` contains, field by field. -/
def refs (i : Nat) : List Nat :=
  ((s.messages[i]?.map Message.fields).getD []).filterMap (fun f => refOf s f.type)

/-- The state of `cycles`: the messages on the stack are active, those in `sorted` are done. -/
structure Visits where
  stack : List Nat
  sorted : List Nat
  problems : List Problem

def nameOf (i : Nat) : String := (s.messages[i]?.map Message.name).getD ""

def posOf (i : Nat) : Pos := (s.messages[i]?.map Message.pos).getD ⟨0, 0⟩

/-- `visit`.  A message that is active contains itself, along the stack from its place on. -/
def visit : Nat → Nat → Visits → Visits
  | 0, i, v => { v with problems := v.problems ++ [⟨posOf s i, .stuck⟩] }
  | fuel + 1, i, v =>
      if i ∈ v.stack then
        let path := (v.stack.dropWhile (· ≠ i)).map (nameOf s) ++ [nameOf s i]
        { v with problems := v.problems ++ [⟨posOf s i, .containsItself (nameOf s i) path⟩] }
      else if i ∈ v.sorted then v
      else
        let v' := (refs s i).foldl (fun v r => visit fuel r v) { v with stack := v.stack ++ [i] }
        { v' with stack := v'.stack.dropLast, sorted := v'.sorted ++ [i] }

/-- `cycles`; a chain of active messages is no longer than the schema. -/
def cycles : Visits :=
  (List.range s.messages.length).foldl (fun v i => visit s (s.messages.length + 1) i v) ⟨[], [], []⟩

/-! ### Layout -/

/-- The bound of a fixed section. -/
def maxFixedSize : Nat := 2 ^ 31 - 1

/-- The messages that have a layout. -/
abbrev Table := Nat → Option Laid

/-- An element type; a message without a layout has alignment 0. -/
def elemOf (t : Table) : Ty → Option Elem
  | .scalar kind _ => some (.scalar kind)
  | .ref name _ => ((s.lookup name).bind t).map .ref
  | _ => none

/-- What the loop over the fields of a message has found. -/
structure Cursor where
  off : Nat
  align : Nat

/-- Where a field goes: `f.Offset` is set to the new `off`, which then moves on by the size. -/
def Cursor.place (c : Cursor) (size align : Nat) : Nat × Cursor :=
  let off := roundUp c.off align
  (off, ⟨off + size, if align > c.align then align else c.align⟩)

/-- The loop over the fields of message `m`. -/
def layoutFields (t : Table) (m : Message) (c : Cursor) : List Field → Except Problem (Fields × Cursor)
  | [] => .ok (.nil, c)
  | f :: fs =>
      match f.type with
      | .string _ => do
          let (rest, c) ← layoutFields t m c fs
          return (.var f.name .string rest, c)
      | .bytes _ => do
          let (rest, c) ← layoutFields t m c fs
          return (.var f.name .bytes rest, c)
      | .array len elem _ =>
          match elemOf s t elem with
          | none => .error ⟨f.pos, .stuck⟩
          | some e => do
              let (off, c) := c.place (len * e.size) e.align
              if c.off > maxFixedSize then .error ⟨f.pos, .tooLarge m.name maxFixedSize⟩
              else
                let (rest, c) ← layoutFields t m c fs
                return (.array f.name len e off rest, c)
      | type =>
          match elemOf s t type with
          | none => .error ⟨f.pos, .stuck⟩
          | some e => do
              let (off, c) := c.place e.size e.align
              if c.off > maxFixedSize then .error ⟨f.pos, .tooLarge m.name maxFixedSize⟩
              else
                let (rest, c) ← layoutFields t m c fs
                return (.one f.name e off rest, c)

/-- The layout of one message. -/
def layoutMessage (t : Table) (m : Message) : Except Problem Laid := do
  let (fields, c) ← layoutFields s t m ⟨0, 1⟩ m.fields
  return .mk m.name fields (roundUp c.off c.align) c.align

/-- `layout`: the messages in order; the first problem ends it. -/
def layout (t : Table) : List Nat → Except Problem Table
  | [] => .ok t
  | i :: rest =>
      match s.messages[i]? with
      | none => .error ⟨⟨0, 0⟩, .stuck⟩
      | some m => do
          let msg ← layoutMessage s t m
          layout (fun j => if j = i then some msg else t j) rest

/-! ### Check -/

/-- A checked schema: the order of the messages, and each message with its layout. -/
structure Checked where
  sorted : List Nat
  msg : Table

/-- By line, then by column. -/
def Problem.le (p q : Problem) : Bool :=
  p.pos.line < q.pos.line || (p.pos.line = q.pos.line && p.pos.col ≤ q.pos.col)

def check : Except (List Problem) Checked :=
  let problems := nameProblems s ++ typeProblems s
  if problems ≠ [] then .error (problems.mergeSort Problem.le)
  else
    let v := cycles s
    if v.problems ≠ [] then .error (v.problems.mergeSort Problem.le)
    else
      match layout s (fun _ => none) v.sorted with
      | .error p => .error [p]
      | .ok t => .ok ⟨v.sorted, t⟩

end

end GoIpc.Schema
