import GoIpc.Lib.Parser
import GoIpc.Schema.Lex
import Mathlib.Data.Nat.Digits.Defs

namespace GoIpc.Schema

open GoIpc.Lib

/-!
# The parser of schema files

`parse` is a recursive parser over the tokens of `lex`.  The end of the file is a token that `next`
returns again and again.

* `typ`, `message`, `parse` — the functions of the source; each loop has the number of the remaining
  tokens as fuel, and `Msg.stuck` for running out of it or out of tokens;
* `Ended` — the shape of what `lex` returns: one end of file, in the last place;
* `parse_ne_stuck` — no loop of `parse` runs out.
-/

/-! ### Schemas -/

inductive Scalar
  | bool
  | u8
  | i8
  | u16
  | i16
  | u32
  | i32
  | f32
  | u64
  | i64
  | f64
deriving DecidableEq

def scalarNames : List (String × Scalar) :=
  [("bool", .bool), ("u8", .u8), ("i8", .i8), ("u16", .u16), ("i16", .i16), ("u32", .u32),
    ("i32", .i32), ("f32", .f32), ("u64", .u64), ("i64", .i64), ("f64", .f64)]

/-- A field type or an array element type. -/
inductive Ty
  | scalar (kind : Scalar) (pos : Pos)
  | string (pos : Pos)
  | bytes (pos : Pos)
  | array (len : Nat) (elem : Ty) (pos : Pos)
  | ref (name : String) (pos : Pos)
deriving DecidableEq

structure Field where
  name : String
  type : Ty
  pos : Pos
deriving DecidableEq

structure Message where
  name : String
  id : Nat
  fields : List Field
  pos : Pos
  idPos : Pos
deriving DecidableEq

set_option linter.dupNamespace false in
structure Schema where
  file : String
  package : String
  pkgPos : Pos
  messages : List Message
deriving DecidableEq

/-! ### Numbers -/

/-- `c | ('x' - 'X')` -/
def lower (c : Nat) : Nat := c ||| 32

/-- The digit that a character stands for in `strconv.ParseUint`. -/
def digit (c : Nat) : Option Nat :=
  if 48 ≤ c ∧ c ≤ 57 then some (c - 48)
  else if 97 ≤ lower c ∧ lower c ≤ 122 then some (lower c - 97 + 10)
  else none

/-- The loop of `strconv.ParseUint`, with a 64-bit accumulator. -/
def parseUintFrom (base maxVal : Nat) : Nat → List Char → Option Nat
  | n, [] => some n
  | n, c :: cs =>
      match digit c.toNat with
      | none => none
      | some d =>
          if base ≤ d then none
          else if (2 ^ 64 - 1) / base + 1 ≤ n then none
          else
            let n := n * base % 2 ^ 64
            let n1 := (n + d) % 2 ^ 64
            if n1 < n ∨ maxVal < n1 then none else parseUintFrom base maxVal n1 cs

/-- `strconv.ParseUint` -/
def parseUint (cs : List Char) (base bits : Nat) : Option Nat :=
  if cs = [] then none else parseUintFrom base (2 ^ bits - 1) 0 cs

/-- A decimal or 0x-prefixed hex number that fits in `bits`. -/
def parseNum (text : String) (bits : Nat) : Option Nat :=
  match text.toList with
  | '0' :: 'x' :: c :: cs | '0' :: 'X' :: c :: cs => parseUint (c :: cs) 16 bits
  | cs => parseUint cs 10 bits

/-! ### The parser -/

abbrev P := Parser Token Error

def stuck {α : Type} : P α := throw ⟨"", ⟨0, 0⟩, .stuck⟩

/-- How an error names a token. -/
def Token.describe (t : Token) : String :=
  match t.kind with
  | .ident | .number => "\"" ++ t.text ++ "\""
  | .eof => "end of file"
  | .newline => "newline"
  | .lbrace => "'\x7b'"
  | .rbrace => "'\x7d'"
  | .lbrack => "'['"
  | .rbrack => "']'"
  | .eq => "'='"

def peek : P Token
  | [] => stuck []
  | t :: ts => .ok (t, t :: ts)

/-- The end of the file stays. -/
def next : P Token
  | [] => stuck []
  | t :: ts => .ok (t, if t.kind = .eof then t :: ts else ts)

def skipNewlines : P Unit := fun ts => .ok ((), ts.dropWhile (·.kind = .newline))

/-- The type that a name stands for. -/
def namedType (name : String) (pos : Pos) : Ty :=
  match scalarNames.lookup name with
  | some kind => .scalar kind pos
  | none => if name = "string" then .string pos else if name = "bytes" then .bytes pos else .ref name pos

section

variable (file : String)

def errorf {α : Type} (pos : Pos) (msg : Msg) : P α := throw ⟨file, pos, msg⟩

def expect (kind : TokKind) (what : String) : P Token := do
  let t ← next
  if t.kind ≠ kind then errorf file t.pos (.expected what t.describe) else return t

/-- A newline or the end of the file. -/
def endLine (after : String) : P Unit := do
  let t ← peek
  if t.kind = .newline ∨ t.kind = .eof then
    let _ ← next
    return ()
  else errorf file t.pos (.expectedNewline after t.describe)

/-- `typ`, with one unit of fuel a token. -/
def typFrom : Nat → P Ty
  | 0 => stuck
  | fuel + 1 => do
      let t ← next
      match t.kind with
      | .ident => return namedType t.text t.pos
      | .lbrack => do
          let n ← expect file .number "array length"
          match parseNum n.text 31 with
          | none => errorf file n.pos (.tooLarge n.text)
          | some len => do
              let _ ← expect file .rbrack "']'"
              let elem ← typFrom fuel
              return .array len elem t.pos
      | _ => errorf file t.pos (.expected "type" t.describe)

def typ : P Ty := fun ts => typFrom file ts.length ts

/-- The fields of a message and its closing brace. -/
def fieldsFrom : Nat → P (List Field)
  | 0 => stuck
  | fuel + 1 => do
      skipNewlines
      let t ← next
      if t.kind = .rbrace then
        endLine file "'\x7d'"
        return []
      else if t.kind ≠ .ident then errorf file t.pos (.expected "field name or '\x7d'" t.describe)
      else
        let type ← typ file
        endLine file "field"
        let fields ← fieldsFrom fuel
        return ⟨t.text, type, t.pos⟩ :: fields

def fields : P (List Field) := fun ts => fieldsFrom file ts.length ts

def message : P Message := do
  let name ← expect file .ident "message name"
  let _ ← expect file .eq "'='"
  let idTok ← expect file .number "type ID"
  match parseNum idTok.text 32 with
  | none => errorf file idTok.pos (.notU32 idTok.text)
  | some id => do
      let _ ← expect file .lbrace "'\x7b'"
      let fields ← fields file
      return ⟨name.text, id, fields, name.pos, idTok.pos⟩

def messagesFrom : Nat → P (List Message)
  | 0 => stuck
  | fuel + 1 => do
      skipNewlines
      let t ← next
      if t.kind = .eof then return []
      else if t.kind = .ident ∧ t.text = "package" then errorf file t.pos .packageAgain
      else if t.kind ≠ .ident ∨ t.text ≠ "message" then
        errorf file t.pos (.expected "'message'" t.describe)
      else
        let m ← message file
        let ms ← messagesFrom fuel
        return m :: ms

def messages : P (List Message) := fun ts => messagesFrom file ts.length ts

def schema : P Schema := do
  skipNewlines
  let t ← next
  if t.kind ≠ .ident ∨ t.text ≠ "package" then errorf file t.pos (.expected "'package'" t.describe)
  else
    let name ← expect file .ident "package name"
    endLine file "package name"
    let messages ← messages file
    return ⟨file, name.text, name.pos, messages⟩

def parse (src : List UInt8) : Except Error Schema := do
  let toks ← lex file src
  let (s, _) ← schema file toks
  return s

end

/-! ### Termination -/

/-- One end of file, in the last place. -/
inductive Ended : List Token → Prop
  | eof {t : Token} (h : t.kind = .eof) : Ended [t]
  | cons {t : Token} {ts : List Token} (h : t.kind ≠ .eof) (hts : Ended ts) : Ended (t :: ts)

/-- The lexer ends its tokens with the end of the file. -/
theorem Lexes.ended {l c : Nat} {src : List UInt8} {ts : List Token} (h : Lexes l c src ts) :
    Ended ts := by
  induction h with
  | eof l c => exact .eof rfl
  | newline _ ih => exact .cons (by simp) ih
  | blank _ _ ih => exact ih
  | comment _ _ _ ih => exact ih
  | word _ _ hkind _ _ ih =>
    refine .cons ?_ ih
    cases hkind <;> simp
  | punct hb _ ih =>
    refine .cons ?_ ih
    cases hb <;> simp

/-- The errors of a parser that did not get stuck. -/
def Reported (e : Error) : Prop := e.msg ≠ .stuck

variable {file : String} {ts : List Token}

theorem runs_errorf {α : Type} {pos : Pos} {msg : Msg} {Q : α → List Token → Prop}
    (h : msg ≠ .stuck) : (errorf file pos msg : P α).Runs Reported ts Q :=
  .throw h

/-- `peek` takes nothing. -/
theorem runs_peek (h : Ended ts) :
    peek.Runs Reported ts (fun t rest => rest = ts ∧ ∃ tail, ts = t :: tail) := by
  cases h with
  | eof heof => exact ⟨rfl, [], rfl⟩
  | cons hne hts => exact ⟨rfl, _, rfl⟩

/-- `next` takes one token, except the end of the file. -/
theorem runs_next (h : Ended ts) : next.Runs Reported ts (fun t rest => Ended rest ∧
    rest.length ≤ ts.length ∧ (t.kind ≠ .eof → rest.length < ts.length)) := by
  cases h with
  | eof heof =>
    simp only [Parser.Runs, next, heof, if_true]
    exact ⟨.eof heof, le_rfl, fun hne => absurd rfl hne⟩
  | cons hne hts =>
    simp only [Parser.Runs, next, if_neg hne]
    exact ⟨hts, by simp, by simp⟩

theorem Ended.dropWhile_newline (h : Ended ts) :
    Ended (ts.dropWhile (·.kind = .newline)) ∧ (ts.dropWhile (·.kind = .newline)).length ≤ ts.length := by
  refine ⟨?_, (List.dropWhile_sublist _).length_le⟩
  induction h with
  | eof heof =>
    rw [List.dropWhile_cons_of_neg (by simp [heof])]
    exact .eof heof
  | @cons t ts hne hts ih =>
    by_cases hnl : t.kind = .newline
    · rwa [List.dropWhile_cons_of_pos (by simpa using hnl)]
    · rw [List.dropWhile_cons_of_neg (by simpa using hnl)]
      exact .cons hne hts

/-- `skipNewlines` leaves at least the end of the file. -/
theorem runs_skipNewlines (h : Ended ts) :
    skipNewlines.Runs Reported ts (fun _ rest => Ended rest ∧ rest.length ≤ ts.length) :=
  h.dropWhile_newline

/-- `expect` takes a token or reports the one that it found. -/
theorem runs_expect (h : Ended ts) {kind : TokKind} {what : String} (hk : kind ≠ .eof) :
    (expect file kind what).Runs Reported ts (fun _ rest => Ended rest ∧ rest.length < ts.length) := by
  refine (runs_next h).bind fun t rest ⟨hended, hle, hlt⟩ => ?_
  split_ifs with heq
  · exact runs_errorf (by simp)
  · exact .pure ⟨hended, hlt (by rw [not_not.mp heq]; exact hk)⟩

theorem runs_endLine (h : Ended ts) {after : String} :
    (endLine file after).Runs Reported ts (fun _ rest => Ended rest ∧ rest.length ≤ ts.length) := by
  refine (runs_peek h).bind fun t rest ⟨hrest, hcons⟩ => ?_
  subst hrest
  split_ifs with heq
  · exact (runs_next h).bind fun _ _ hnext => .pure ⟨hnext.1, hnext.2.1⟩
  · exact runs_errorf (by simp)

/-- Every bracket takes a token, so the fuel lasts. -/
theorem runs_typFrom (fuel : Nat) {ts : List Token} (h : Ended ts) (hfuel : ts.length ≤ fuel) :
    (typFrom file fuel).Runs Reported ts (fun _ rest => Ended rest ∧ rest.length < ts.length) := by
  induction fuel generalizing ts with
  | zero => cases h <;> simp at hfuel
  | succ fuel ih =>
    refine (runs_next h).bind fun t rest ⟨hended, hle, hlt⟩ => ?_
    split
    · next hkind => exact .pure ⟨hended, hlt (by simp [hkind])⟩
    · next hkind =>
      have hlt := hlt (by simp [hkind])
      refine (runs_expect hended (by simp)).bind fun n rest1 ⟨hended1, hlt1⟩ => ?_
      split
      · exact runs_errorf (by simp)
      · refine (runs_expect hended1 (by simp)).bind fun _ rest2 ⟨hended2, hlt2⟩ => ?_
        refine (ih hended2 (by omega)).bind fun elem rest3 ⟨hended3, hlt3⟩ => ?_
        exact .pure ⟨hended3, by omega⟩
    · exact runs_errorf (by simp)

theorem runs_typ (h : Ended ts) :
    (typ file).Runs Reported ts (fun _ rest => Ended rest ∧ rest.length < ts.length) :=
  runs_typFrom ts.length h le_rfl

/-- A field takes a line, and the closing brace ends the loop. -/
theorem runs_fieldsFrom (fuel : Nat) {ts : List Token} (h : Ended ts) (hfuel : ts.length ≤ fuel) :
    (fieldsFrom file fuel).Runs Reported ts (fun _ rest => Ended rest ∧ rest.length ≤ ts.length) := by
  induction fuel generalizing ts with
  | zero => cases h <;> simp at hfuel
  | succ fuel ih =>
    refine (runs_skipNewlines h).bind fun _ rest0 ⟨hended0, hle0⟩ => ?_
    refine (runs_next hended0).bind fun t rest ⟨hended, hle, hlt⟩ => ?_
    split_ifs with hbrace hident
    · exact (runs_endLine hended).bind fun _ rest1 ⟨hended1, hle1⟩ => .pure ⟨hended1, by omega⟩
    · exact runs_errorf (by simp)
    · have hlt := hlt (by rw [not_not.mp hident]; simp)
      refine (runs_typ hended).bind fun type rest1 ⟨hended1, hlt1⟩ => ?_
      refine (runs_endLine hended1).bind fun _ rest2 ⟨hended2, hle2⟩ => ?_
      refine (ih hended2 (by omega)).bind fun fields rest3 ⟨hended3, hle3⟩ => ?_
      exact .pure ⟨hended3, by omega⟩

/-- `message` begins behind its keyword. -/
theorem runs_message (h : Ended ts) :
    (message file).Runs Reported ts (fun _ rest => Ended rest ∧ rest.length ≤ ts.length) := by
  refine (runs_expect h (by simp)).bind fun name rest1 ⟨hended1, hlt1⟩ => ?_
  refine (runs_expect hended1 (by simp)).bind fun _ rest2 ⟨hended2, hlt2⟩ => ?_
  refine (runs_expect hended2 (by simp)).bind fun idTok rest3 ⟨hended3, hlt3⟩ => ?_
  split
  · exact runs_errorf (by simp)
  · refine (runs_expect hended3 (by simp)).bind fun _ rest4 ⟨hended4, hlt4⟩ => ?_
    refine Parser.Runs.bind (runs_fieldsFrom rest4.length hended4 le_rfl) fun fields rest5 h5 => ?_
    exact .pure ⟨h5.1, by have := h5.2; omega⟩

/-- Every keyword takes a token, so the fuel lasts. -/
theorem runs_messagesFrom (fuel : Nat) {ts : List Token} (h : Ended ts) (hfuel : ts.length ≤ fuel) :
    (messagesFrom file fuel).Runs Reported ts (fun _ rest => Ended rest) := by
  induction fuel generalizing ts with
  | zero => cases h <;> simp at hfuel
  | succ fuel ih =>
    refine (runs_skipNewlines h).bind fun _ rest0 ⟨hended0, hle0⟩ => ?_
    refine (runs_next hended0).bind fun t rest ⟨hended, hle, hlt⟩ => ?_
    split_ifs with heof
    · exact .pure hended
    · exact runs_errorf (by simp)
    · exact runs_errorf (by simp)
    · have hlt := hlt heof
      refine (runs_message hended).bind fun m rest1 ⟨hended1, hle1⟩ => ?_
      refine (ih hended1 (by omega)).bind fun ms rest2 hended2 => ?_
      exact .pure hended2

/-- `schema` accepts or reports an error of its own. -/
theorem runs_schema (h : Ended ts) :
    (schema file).Runs Reported ts (fun _ rest => Ended rest) := by
  refine (runs_skipNewlines h).bind fun _ rest0 ⟨hended0, _⟩ => ?_
  refine (runs_next hended0).bind fun t rest ⟨hended, _, _⟩ => ?_
  split_ifs
  · exact runs_errorf (by simp)
  · refine (runs_expect hended (by simp)).bind fun name rest1 ⟨hended1, _⟩ => ?_
    refine (runs_endLine hended1).bind fun _ rest2 ⟨hended2, _⟩ => ?_
    refine Parser.Runs.bind (runs_messagesFrom rest2.length hended2 le_rfl) fun ms rest3 hended3 => ?_
    exact .pure hended3

/-- `parse` lexes first. -/
theorem parse_eq (file : String) (src : List UInt8) :
    parse file src = match lex file src with
      | .ok toks => (schema file toks).map Prod.fst
      | .error e => .error e := by
  unfold parse
  cases lex file src with
  | error e => rfl
  | ok toks =>
    show (schema file toks >>= fun x => pure x.1) = (schema file toks).map Prod.fst
    cases schema file toks <;> rfl

theorem map_eq_error {α β : Type} {x : Except Error α} {f : α → β} {e : Error} :
    x.map f = .error e ↔ x = .error e := by
  cases x <;> simp [Except.map]

/-- `lex` has no loop that could run out. -/
theorem lexFrom_reported {l c : Nat} {src : List UInt8} {e : Error}
    (h : lexFrom file l c src = .error e) : Reported e := by
  match src with
  | [] =>
    rw [lexFrom] at h
    cases h
  | a :: bs =>
    rw [lexFrom_cons] at h
    split_ifs at h
    · exact lexFrom_reported (map_eq_error.mp h)
    · exact lexFrom_reported h
    · exact lexFrom_reported h
    · exact lexFrom_reported (map_eq_error.mp h)
    · exact lexFrom_reported (map_eq_error.mp h)
    · split at h
      · exact lexFrom_reported (map_eq_error.mp h)
      · cases h
        simp [Reported]
termination_by src.length
decreasing_by
  · simp
  · simp
  · exact Nat.lt_succ_of_le (List.dropWhile_sublist _).length_le
  · exact dropWhile_isWord_lt ‹_›
  · exact dropWhile_isWord_lt ‹_›
  · simp

/-- **`parse` terminates**: no loop runs out of fuel or reads past the end of the tokens. -/
theorem parse_ne_stuck {src : List UInt8} {e : Error} (h : parse file src = .error e) :
    e.msg ≠ .stuck := by
  rw [parse_eq] at h
  cases hlex : lex file src with
  | error e' =>
    rw [hlex] at h
    cases h
    exact lexFrom_reported hlex
  | ok toks =>
    rw [hlex] at h
    exact (runs_schema (lexes_of_lexFrom hlex).ended).of_error (map_eq_error.mp h)

end GoIpc.Schema
