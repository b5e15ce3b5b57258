import GoIpc.Schema.Parse

namespace GoIpc.Schema

open GoIpc.Lib

/-!
# The grammar of schema files

The grammar relates the tokens at the start of a list to what they stand for, and to the rest:

    file    = NL* 'package' name EOL (NL* message)* NL* EOF
    message = 'message' name '=' num '{' (NL* name type EOL)* NL* '}' EOL
    type    = name | '[' num ']' type

An `EOL` is a newline, or the end of the file, which stays.

* `parseNum_eq_some` — numbers are decimal or hex numerals that fit;
* `typ_eq_ok`, `fields_eq_ok`, `messages_eq_ok` — each parser accepts what its nonterminal derives;
* `parse_accepts_grammar` — `parse` returns a schema for exactly the files of the grammar.
-/

/-! ### Numerals -/

def digitOf (c : Char) : Option Nat :=
  if '0' ≤ c ∧ c ≤ '9' then some (c.toNat - '0'.toNat)
  else if 'a' ≤ c ∧ c ≤ 'f' then some (c.toNat - 'a'.toNat + 10)
  else if 'A' ≤ c ∧ c ≤ 'F' then some (c.toNat - 'A'.toNat + 10)
  else none

/-- `cs` spells the digits `ds` of base `base`. -/
def Spells (base : Nat) (cs : List Char) (ds : List Nat) : Prop :=
  List.Forall₂ (fun c d => digitOf c = some d ∧ d < base) cs ds

/-- A decimal numeral, or a hex numeral after `0x` or `0X`, and its value. -/
inductive Numeral : List Char → Nat → Prop
  | decimal {cs : List Char} {ds : List Nat} (hne : cs ≠ []) (h : Spells 10 cs ds) :
      Numeral cs (Nat.ofDigits 10 ds.reverse)
  | hex {x : Char} {cs : List Char} {ds : List Nat} (hx : x = 'x' ∨ x = 'X') (hne : cs ≠ [])
      (h : Spells 16 cs ds) : Numeral ('0' :: x :: cs) (Nat.ofDigits 16 ds.reverse)

/-- The digits of `strconv.ParseUint` below 16. -/
theorem digit_eq_some {c : Char} {d : Nat} (hd : d < 16) :
    digit c.toNat = some d ↔ digitOf c = some d := by
  have hle : ∀ {a b : Char}, a ≤ b ↔ a.toNat ≤ b.toNat := Iff.rfl
  simp only [digitOf, hle]
  generalize c.toNat = n
  have hlow : ∀ n < 128, ∀ d < 16, digit n = some d ↔
      (if '0'.toNat ≤ n ∧ n ≤ '9'.toNat then some (n - '0'.toNat)
        else if 'a'.toNat ≤ n ∧ n ≤ 'f'.toNat then some (n - 'a'.toNat + 10)
        else if 'A'.toNat ≤ n ∧ n ≤ 'F'.toNat then some (n - 'A'.toNat + 10)
        else none) = some d := by decide
  rcases Nat.lt_or_ge n 128 with hn | hn
  · exact hlow n hn d hd
  · have hlower : n ≤ lower n := Nat.left_le_or
    have : digit n = none := by
      unfold digit
      rw [if_neg (by omega), if_neg (by omega)]
    rw [this, if_neg (by simp; omega), if_neg (by simp; omega), if_neg (by simp; omega)]

variable {base : Nat} {cs : List Char} {t : Token}

theorem spells_cons {d : Nat} {c : Char} {ds : List Nat} (hd : d < base) (hdigit : digitOf c = some d) :
    Spells base (c :: cs) ds ↔ ∃ ds', ds = d :: ds' ∧ Spells base cs ds' := by
  constructor
  · rintro (_ | ⟨⟨hdigit', -⟩, hrest⟩)
    rw [hdigit] at hdigit'
    cases hdigit'
    exact ⟨_, rfl, hrest⟩
  · rintro ⟨ds', rfl, h⟩
    exact .cons ⟨hdigit, hd⟩ h

/-- The value of the digits `ds` after `n`. -/
def extend (base n : Nat) (ds : List Nat) : Nat := ds.foldl (fun y x => x + base * y) n

theorem extend_eq_ofDigits (base : Nat) (ds : List Nat) :
    extend base 0 ds = Nat.ofDigits base ds.reverse := by
  rw [Nat.ofDigits_eq_foldr, List.foldr_reverse]
  rfl

theorem le_extend (hbase : 0 < base) (n : Nat) (ds : List Nat) : n ≤ extend base n ds := by
  induction ds generalizing n with
  | nil => exact le_rfl
  | cons d ds ih =>
    calc n ≤ d + base * n := Nat.le_add_left_of_le (Nat.le_mul_of_pos_left n hbase)
      _ ≤ extend base (d + base * n) ds := ih _

/-- One digit in `strconv.ParseUint`: the checks before and after the 64-bit arithmetic find every value
    that is too large. -/
theorem parseUint_digit {maxVal n d : Nat} {k : Nat → Option Nat} (hbase : 0 < base) (hbound : base ≤ 16)
    (hmax : maxVal < 2 ^ 64) (hd : d < base) :
    (if (2 ^ 64 - 1) / base + 1 ≤ n then none
      else if (n * base % 2 ^ 64 + d) % 2 ^ 64 < n * base % 2 ^ 64 ∨
          maxVal < (n * base % 2 ^ 64 + d) % 2 ^ 64 then none
      else k ((n * base % 2 ^ 64 + d) % 2 ^ 64)) =
    if maxVal < n * base + d then none else k (n * base + d) := by
  by_cases hcut : (2 ^ 64 - 1) / base + 1 ≤ n
  · have hbig : 2 ^ 64 - 1 < n * base := (Nat.div_lt_iff_lt_mul hbase).mp hcut
    rw [if_pos hcut, if_pos (by omega)]
  · have hle : n * base ≤ 2 ^ 64 - 1 := (Nat.le_div_iff_mul_le hbase).mp (by omega)
    rw [if_neg hcut, Nat.mod_eq_of_lt (show n * base < 2 ^ 64 by omega)]
    rcases Nat.lt_or_ge (n * base + d) (2 ^ 64) with hsum | hsum
    · rw [Nat.mod_eq_of_lt hsum]
      by_cases hbig : maxVal < n * base + d
      · rw [if_pos (.inr hbig), if_pos hbig]
      · rw [if_neg (by omega), if_neg hbig]
    · have hwrap : (n * base + d) % 2 ^ 64 = n * base + d - 2 ^ 64 := by
        rw [Nat.mod_eq_sub_mod hsum, Nat.mod_eq_of_lt (by omega)]
      rw [hwrap, if_pos (.inl (by omega)), if_pos (by omega)]

/-- The loop of `strconv.ParseUint` reads a numeral that fits. -/
theorem parseUintFrom_eq_some {maxVal n m : Nat} (hbase : 0 < base ∧ base ≤ 16) (hmax : maxVal < 2 ^ 64)
    (hn : n ≤ maxVal) :
    parseUintFrom base maxVal n cs = some m ↔
      ∃ ds, Spells base cs ds ∧ m = extend base n ds ∧ m ≤ maxVal := by
  induction cs generalizing n with
  | nil =>
    constructor
    · rintro ⟨⟩
      exact ⟨[], .nil, rfl, hn⟩
    · rintro ⟨ds, _ | _, rfl, -⟩
      rfl
  | cons c cs ih =>
    have hsmall : ∀ {d}, d < base → (digit c.toNat = some d ↔ digitOf c = some d) :=
      fun hd => digit_eq_some (by omega)
    -- a character that is no digit of the base starts no numeral
    have hno : ∀ ds, Spells base (c :: cs) ds → ∃ d < base, digit c.toNat = some d := by
      rintro ds (_ | ⟨⟨hdigit, hd⟩, -⟩)
      exact ⟨_, hd, (hsmall hd).mpr hdigit⟩
    rw [parseUintFrom]
    cases hdigit : digit c.toNat with
    | none =>
      refine ⟨nofun, fun ⟨ds, hds, _⟩ => ?_⟩
      obtain ⟨d, -, hd⟩ := hno ds hds
      rw [hdigit] at hd
      cases hd
    | some d =>
      by_cases hd : base ≤ d
      · simp only [if_pos hd]
        refine ⟨nofun, fun ⟨ds, hds, _⟩ => ?_⟩
        obtain ⟨d', hlt, hd'⟩ := hno ds hds
        rw [hdigit] at hd'
        cases hd'
        omega
      · have hlt : d < base := by omega
        simp only [if_neg hd, spells_cons hlt ((hsmall hlt).mp hdigit)]
        rw [parseUint_digit (k := fun n1 => parseUintFrom base maxVal n1 cs) hbase.1 hbase.2 hmax hlt]
        have hstep : ∀ ds, extend base n (d :: ds) = extend base (n * base + d) ds := by
          intro ds
          show extend base (d + base * n) ds = _
          rw [Nat.add_comm, Nat.mul_comm]
        split_ifs with hbig
        · refine ⟨nofun, ?_⟩
          rintro ⟨_, ⟨ds, rfl, -⟩, rfl, hm⟩
          have := le_extend hbase.1 (n * base + d) ds
          rw [← hstep] at this
          omega
        · rw [ih (by omega)]
          constructor
          · rintro ⟨ds, hds, hm⟩
            exact ⟨d :: ds, ⟨ds, rfl, hds⟩, by rwa [hstep]⟩
          · rintro ⟨_, ⟨ds, rfl, hds⟩, hm⟩
            exact ⟨ds, hds, by rwa [hstep] at hm⟩

theorem parseUint_eq_some {bits m : Nat} (hbase : 0 < base ∧ base ≤ 16) (hbits : bits ≤ 64) :
    parseUint cs base bits = some m ↔
      cs ≠ [] ∧ ∃ ds, Spells base cs ds ∧ m = Nat.ofDigits base ds.reverse ∧ m < 2 ^ bits := by
  have hpow : 2 ^ bits ≤ 2 ^ 64 := Nat.pow_le_pow_right (by omega) hbits
  have hpos : 0 < 2 ^ bits := Nat.two_pow_pos bits
  unfold parseUint
  split_ifs with hcs
  · simp [hcs]
  · rw [parseUintFrom_eq_some hbase (by omega) (Nat.zero_le _)]
    simp only [extend_eq_ofDigits, ne_eq, hcs, not_false_eq_true, true_and]
    constructor
    · rintro ⟨ds, hds, hm, hle⟩
      exact ⟨ds, hds, hm, by omega⟩
    · rintro ⟨ds, hds, hm, hlt⟩
      exact ⟨ds, hds, hm, by omega⟩

/-- A hex numeral is no decimal one. -/
theorem parseUint_hex_eq_some {x c : Char} {bits n : Nat} (hx : x = 'x' ∨ x = 'X') (hbits : bits ≤ 64) :
    parseUint (c :: cs) 16 bits = some n ↔
      Numeral ('0' :: x :: c :: cs) n ∧ n < 2 ^ bits := by
  rw [parseUint_eq_some (by omega) hbits]
  constructor
  · rintro ⟨hne, ds, hds, rfl, hlt⟩
    exact ⟨.hex hx hne hds, hlt⟩
  · rintro ⟨h, hlt⟩
    generalize hcs : '0' :: x :: c :: cs = text at h
    cases h with
    | decimal hne h =>
      subst hcs
      rcases h with _ | ⟨-, _ | ⟨⟨hdigit, -⟩, -⟩⟩
      rcases hx with rfl | rfl <;> cases hdigit
    | hex hx' hne h =>
      cases hcs
      exact ⟨hne, _, h, rfl, hlt⟩

/-- **Numbers**: `parseNum` accepts the numerals that fit in `bits` bits. -/
theorem parseNum_eq_some {text : String} {bits n : Nat} (hbits : bits ≤ 64) :
    parseNum text bits = some n ↔ Numeral text.toList n ∧ n < 2 ^ bits := by
  unfold parseNum
  split
  · next heq => rw [parseUint_hex_eq_some (.inl rfl) hbits, heq]
  · next heq => rw [parseUint_hex_eq_some (.inr rfl) hbits, heq]
  · next hx hX =>
    rw [parseUint_eq_some (by omega) hbits]
    constructor
    · rintro ⟨hne, ds, hds, rfl, hlt⟩
      exact ⟨.decimal hne hds, hlt⟩
    · rintro ⟨h, hlt⟩
      generalize text.toList = cs at hx hX h
      cases h with
      | decimal hne h => exact ⟨hne, _, h, rfl, hlt⟩
      | @hex x cs ds hx' hne h =>
        obtain ⟨c, cs, rfl⟩ := List.exists_cons_of_ne_nil hne
        rcases hx' with rfl | rfl
        · exact absurd rfl (hx c cs)
        · exact absurd rfl (hX c cs)

/-! ### The grammar -/

def Newlines (nls : List Token) : Prop := ∀ t ∈ nls, t.kind = .newline

inductive EndsLine : List Token → List Token → Prop
  | newline {t : Token} {ts : List Token} (h : t.kind = .newline) : EndsLine (t :: ts) ts
  | eof {t : Token} {ts : List Token} (h : t.kind = .eof) : EndsLine (t :: ts) (t :: ts)

/-- The type that a name stands for: eleven scalars, strings and bytes, or a message. -/
inductive NamedType (pos : Pos) : String → Ty → Prop
  | bool : NamedType pos "bool" (.scalar .bool pos)
  | u8 : NamedType pos "u8" (.scalar .u8 pos)
  | i8 : NamedType pos "i8" (.scalar .i8 pos)
  | u16 : NamedType pos "u16" (.scalar .u16 pos)
  | i16 : NamedType pos "i16" (.scalar .i16 pos)
  | u32 : NamedType pos "u32" (.scalar .u32 pos)
  | i32 : NamedType pos "i32" (.scalar .i32 pos)
  | f32 : NamedType pos "f32" (.scalar .f32 pos)
  | u64 : NamedType pos "u64" (.scalar .u64 pos)
  | i64 : NamedType pos "i64" (.scalar .i64 pos)
  | f64 : NamedType pos "f64" (.scalar .f64 pos)
  | string : NamedType pos "string" (.string pos)
  | bytes : NamedType pos "bytes" (.bytes pos)
  | ref {name : String}
      (h : name ∉ ["bool", "u8", "i8", "u16", "i16", "u32", "i32", "f32", "u64", "i64", "f64",
        "string", "bytes"]) : NamedType pos name (.ref name pos)

/-- A type: the name of one, or the length of an array and the type of its elements. -/
inductive DerivesType : List Token → Ty → List Token → Prop
  | name {t : Token} {type : Ty} {ts : List Token} (h : t.kind = .ident)
      (htype : NamedType t.pos t.text type) : DerivesType (t :: ts) type ts
  | array {l n r : Token} {len : Nat} {elem : Ty} {ts rest : List Token} (hl : l.kind = .lbrack)
      (hn : n.kind = .number) (hlen : Numeral n.text.toList len) (hfits : len < 2 ^ 31)
      (hr : r.kind = .rbrack) (h : DerivesType ts elem rest) :
      DerivesType (l :: n :: r :: ts) (.array len elem l.pos) rest

/-- The fields of a message and its closing brace. -/
inductive DerivesFields : List Token → List Field → List Token → Prop
  | close {nls ts rest : List Token} {r : Token} (hnl : Newlines nls) (hr : r.kind = .rbrace)
      (h : EndsLine ts rest) : DerivesFields (nls ++ r :: ts) [] rest
  | field {nls ts ts1 ts2 rest : List Token} {t : Token} {type : Ty} {fields : List Field}
      (hnl : Newlines nls) (ht : t.kind = .ident) (htype : DerivesType ts type ts1)
      (hend : EndsLine ts1 ts2) (h : DerivesFields ts2 fields rest) :
      DerivesFields (nls ++ t :: ts) (⟨t.text, type, t.pos⟩ :: fields) rest

/-- A message after its keyword. -/
inductive DerivesMessage : List Token → Message → List Token → Prop
  | message {name eq num l : Token} {ts rest : List Token} {id : Nat} {fields : List Field}
      (hname : name.kind = .ident) (heq : eq.kind = .eq) (hnum : num.kind = .number)
      (hid : Numeral num.text.toList id) (hfits : id < 2 ^ 32) (hl : l.kind = .lbrace)
      (h : DerivesFields ts fields rest) :
      DerivesMessage (name :: eq :: num :: l :: ts) ⟨name.text, id, fields, name.pos, num.pos⟩ rest

/-- The messages up to the end of the file, which is the last token. -/
inductive DerivesMessages : List Token → List Message → Prop
  | eof {nls : List Token} {t : Token} (hnl : Newlines nls) (ht : t.kind = .eof) :
      DerivesMessages (nls ++ [t]) []
  | message {nls ts ts1 : List Token} {t : Token} {m : Message} {ms : List Message}
      (hnl : Newlines nls) (ht : t.kind = .ident) (htext : t.text = "message")
      (hm : DerivesMessage ts m ts1) (h : DerivesMessages ts1 ms) :
      DerivesMessages (nls ++ t :: ts) (m :: ms)

inductive DerivesSchema (file : String) : List Token → Schema → Prop
  | schema {nls ts ts1 : List Token} {t name : Token} {ms : List Message} (hnl : Newlines nls)
      (ht : t.kind = .ident) (htext : t.text = "package") (hname : name.kind = .ident)
      (hend : EndsLine ts ts1) (h : DerivesMessages ts1 ms) :
      DerivesSchema file (nls ++ t :: name :: ts) ⟨file, name.text, name.pos, ms⟩

/-! ### The parsers accept what the grammar derives -/

/-- A name that is none of the built-in types is the name of a message. -/
theorem namedType_ref {name : String} {pos : Pos}
    (h : name ∉ ["bool", "u8", "i8", "u16", "i16", "u32", "i32", "f32", "u64", "i64", "f64",
      "string", "bytes"]) : namedType name pos = .ref name pos := by
  have hlookup : scalarNames.lookup name = none := by
    refine List.lookup_eq_none_iff.mpr fun p hp => bne_iff_ne.mpr fun hname => h ?_
    rw [hname]
    have hkeys : ∀ p ∈ scalarNames, p.1 ∈ ["bool", "u8", "i8", "u16", "i16", "u32", "i32", "f32",
        "u64", "i64", "f64", "string", "bytes"] := by decide
    exact hkeys p hp
  simp only [List.mem_cons, List.not_mem_nil, or_false, not_or] at h
  rw [namedType, hlookup]
  simp [h]

/-- `namedType` is the grammar's reading of a name. -/
theorem namedType_iff {name : String} {pos : Pos} {type : Ty} :
    NamedType pos name type ↔ type = namedType name pos := by
  constructor
  · intro h
    cases h with
    | ref h => rw [namedType_ref h]
    | _ => rfl
  · rintro rfl
    by_cases h : name ∈ ["bool", "u8", "i8", "u16", "i16", "u32", "i32", "f32", "u64", "i64", "f64",
        "string", "bytes"]
    · simp only [List.mem_cons, List.not_mem_nil, or_false] at h
      rcases h with rfl | rfl | rfl | rfl | rfl | rfl | rfl | rfl | rfl | rfl | rfl | rfl | rfl <;>
        constructor
    · rw [namedType_ref h]
      exact .ref h

variable {file : String} {ts rest : List Token}

theorem next_eq_ok :
    next ts = .ok (t, rest) ↔ ∃ tail, ts = t :: tail ∧ rest = if t.kind = .eof then ts else tail := by
  cases ts with
  | nil => simp [next, stuck, Parser.throw_eq_ok]
  | cons a tail =>
    simp only [next, Except.ok.injEq, Prod.mk.injEq, List.cons.injEq]
    constructor
    · rintro ⟨rfl, rfl⟩
      exact ⟨tail, ⟨rfl, rfl⟩, rfl⟩
    · rintro ⟨_, ⟨rfl, rfl⟩, rfl⟩
      exact ⟨rfl, rfl⟩

theorem errorf_eq_ok {α : Type} {pos : Pos} {msg : Msg} {r : α × List Token} :
    (errorf file pos msg : P α) ts = .ok r ↔ False :=
  Parser.throw_eq_ok

/-- A parser that goes on after a token that is not the end of the file. -/
theorem next_bind_eq_ok {α : Type} {f : Token → P α} {r : α × List Token} (heof : ∀ t r', t.kind = .eof → f t r' ≠ .ok r) :
    (next >>= f) ts = .ok r ↔ ∃ t tail, ts = t :: tail ∧ t.kind ≠ .eof ∧ f t tail = .ok r := by
  rw [Parser.bind_eq_ok]
  constructor
  · rintro ⟨t, rest, hnext, h⟩
    obtain ⟨tail, rfl, rfl⟩ := next_eq_ok.mp hnext
    have hne : t.kind ≠ .eof := fun hk => heof t _ hk h
    rw [if_neg hne] at h
    exact ⟨t, tail, rfl, hne, h⟩
  · rintro ⟨t, tail, rfl, hne, h⟩
    exact ⟨t, tail, next_eq_ok.mpr ⟨tail, rfl, by rw [if_neg hne]⟩, h⟩

theorem expect_eq_ok {kind : TokKind} {what : String} (hk : kind ≠ .eof) :
    expect file kind what ts = .ok (t, rest) ↔ ts = t :: rest ∧ t.kind = kind := by
  unfold expect
  rw [next_bind_eq_ok]
  · constructor
    · rintro ⟨t', tail, rfl, -, h⟩
      split_ifs at h with hkind
      · exact (errorf_eq_ok.mp h).elim
      · cases Parser.pure_eq_ok.mp h
        exact ⟨rfl, not_not.mp hkind⟩
    · rintro ⟨rfl, rfl⟩
      exact ⟨t, rest, rfl, hk, by simp [Parser.pure_eq_ok]⟩
  · intro t' r' heof h
    rw [if_pos (heof ▸ hk.symm)] at h
    exact errorf_eq_ok.mp h

theorem endLine_eq_ok {after : String} :
    endLine file after ts = .ok ((), rest) ↔ EndsLine ts rest := by
  unfold endLine
  cases ts with
  | nil =>
    refine ⟨fun h => ?_, nofun⟩
    obtain ⟨_, _, hpeek, -⟩ := Parser.bind_eq_ok.mp h
    cases hpeek
  | cons t tail =>
    show (if t.kind = .newline ∨ t.kind = .eof then next >>= fun _ => pure () else _ : P Unit)
      (t :: tail) = _ ↔ _
    by_cases heof : t.kind = .eof
    · rw [if_pos (.inr heof)]
      simp only [Parser.bind_eq_ok, next_eq_ok, Parser.pure_eq_ok]
      constructor
      · rintro ⟨_, _, ⟨tail', ⟨rfl, rfl⟩, rfl⟩, h⟩
        rw [if_pos heof] at h
        cases h
        exact .eof heof
      · rintro (⟨h⟩ | ⟨-⟩)
        · rw [heof] at h
          cases h
        · exact ⟨t, t :: tail, ⟨tail, rfl, by rw [if_pos heof]⟩, rfl⟩
    · by_cases hnl : t.kind = .newline
      · rw [if_pos (.inl hnl)]
        simp only [Parser.bind_eq_ok, next_eq_ok, Parser.pure_eq_ok]
        constructor
        · rintro ⟨_, _, ⟨tail', ⟨rfl, rfl⟩, rfl⟩, h⟩
          rw [if_neg heof] at h
          cases h
          exact .newline hnl
        · rintro (⟨-⟩ | ⟨h⟩)
          · exact ⟨t, rest, ⟨rest, rfl, by rw [if_neg heof]⟩, rfl⟩
          · exact absurd h heof
      · rw [if_neg (by simp [heof, hnl])]
        refine ⟨fun h => (errorf_eq_ok.mp h).elim, ?_⟩
        rintro (⟨h⟩ | ⟨h⟩)
        · exact absurd h hnl
        · exact absurd h heof

theorem EndsLine.length_le (h : EndsLine ts rest) : rest.length ≤ ts.length := by
  cases h <;> simp

theorem DerivesType.length_lt {type : Ty} (h : DerivesType ts type rest) :
    rest.length < ts.length := by
  induction h with
  | name => simp
  | array _ _ _ _ _ _ ih =>
    simp only [List.length_cons]
    omega

theorem typFrom_eq_ok {type : Ty} (fuel : Nat) {ts : List Token} (hfuel : ts.length ≤ fuel) :
    typFrom file fuel ts = .ok (type, rest) ↔ DerivesType ts type rest := by
  induction fuel generalizing ts type with
  | zero =>
    obtain rfl : ts = [] := List.eq_nil_of_length_eq_zero (by omega)
    exact ⟨nofun, nofun⟩
  | succ fuel ih =>
    rw [typFrom, next_bind_eq_ok]
    · constructor
      · rintro ⟨t, tail, rfl, -, h⟩
        cases hkind : t.kind <;> simp only [hkind] at h
        case ident =>
          cases Parser.pure_eq_ok.mp h
          exact .name hkind (namedType_iff.mpr rfl)
        case lbrack =>
          rw [Parser.bind_eq_ok] at h
          obtain ⟨n, ts1, hn, h⟩ := h
          obtain ⟨rfl, hnkind⟩ := (expect_eq_ok (by simp)).mp hn
          cases hlen : parseNum n.text 31 with
          | none =>
            rw [hlen] at h
            exact (errorf_eq_ok.mp h).elim
          | some len =>
            rw [hlen] at h
            simp only at h
            rw [Parser.bind_eq_ok] at h
            obtain ⟨r, ts2, hr, h⟩ := h
            obtain ⟨rfl, hrkind⟩ := (expect_eq_ok (by simp)).mp hr
            rw [Parser.bind_eq_ok] at h
            obtain ⟨elem, ts3, helem, h⟩ := h
            cases Parser.pure_eq_ok.mp h
            simp only [List.length_cons] at hfuel
            obtain ⟨hnum, hfits⟩ := (parseNum_eq_some (by omega)).mp hlen
            exact .array hkind hnkind hnum hfits hrkind ((ih (by omega)).mp helem)
        all_goals exact (errorf_eq_ok.mp h).elim
      · rintro (⟨hkind, htype⟩ | ⟨hl, hn, hlen, hfits, hr, h⟩)
        · obtain rfl := namedType_iff.mp htype
          exact ⟨_, _, rfl, by simp [hkind], by simp [hkind, Parser.pure_eq_ok]⟩
        · refine ⟨_, _, rfl, by simp [hl], ?_⟩
          simp only [hl]
          simp only [List.length_cons] at hfuel
          refine Parser.bind_eq_ok.mpr ⟨_, _, (expect_eq_ok (by simp)).mpr ⟨rfl, hn⟩, ?_⟩
          rw [(parseNum_eq_some (by omega)).mpr ⟨hlen, hfits⟩]
          refine Parser.bind_eq_ok.mpr ⟨_, _, (expect_eq_ok (by simp)).mpr ⟨rfl, hr⟩, ?_⟩
          exact Parser.bind_eq_ok.mpr ⟨_, _, (ih (by omega)).mpr h, rfl⟩
    · intro t r' heof h
      simp only [heof] at h
      exact errorf_eq_ok.mp h

/-- **Types.** -/
theorem typ_eq_ok {type : Ty} : typ file ts = .ok (type, rest) ↔ DerivesType ts type rest :=
  typFrom_eq_ok ts.length le_rfl

theorem skipNewlines_bind {α : Type} (f : Unit → P α) (ts : List Token) :
    (skipNewlines >>= f) ts = f () (ts.dropWhile (·.kind = .newline)) := rfl

theorem dropWhile_newlines_append {nls tail : List Token} (hnls : Newlines nls) (ht : t.kind ≠ .newline) :
    (nls ++ t :: tail).dropWhile (·.kind = .newline) = t :: tail := by
  rw [List.dropWhile_append_of_pos (by simpa [Newlines] using hnls),
    List.dropWhile_cons_of_neg (by simpa using ht)]

theorem dropWhile_newline_eq {tail : List Token} (ht : t.kind ≠ .newline) :
    ts.dropWhile (·.kind = .newline) = t :: tail ↔ ∃ nls, Newlines nls ∧ ts = nls ++ t :: tail := by
  constructor
  · intro h
    refine ⟨ts.takeWhile (·.kind = .newline), fun x hx => ?_, ?_⟩
    · simpa using List.mem_takeWhile_imp hx
    · rw [← h, List.takeWhile_append_dropWhile]
  · rintro ⟨nls, hnls, rfl⟩
    exact dropWhile_newlines_append hnls ht

theorem fieldsFrom_eq_ok {fields : List Field} (fuel : Nat) {ts : List Token}
    (hfuel : ts.length ≤ fuel) :
    fieldsFrom file fuel ts = .ok (fields, rest) ↔ DerivesFields ts fields rest := by
  induction fuel generalizing ts fields with
  | zero =>
    obtain rfl : ts = [] := List.eq_nil_of_length_eq_zero (by omega)
    refine ⟨nofun, fun h => ?_⟩
    generalize hts : ([] : List Token) = ts at h
    cases h <;> simp at hts
  | succ fuel ih =>
    rw [fieldsFrom, skipNewlines_bind, next_bind_eq_ok]
    · constructor
      · rintro ⟨t, tail, hts, -, h⟩
        split_ifs at h with hbrace hident
        · obtain ⟨nls, hnls, rfl⟩ := (dropWhile_newline_eq (by simp [hbrace])).mp hts
          rw [Parser.bind_eq_ok] at h
          obtain ⟨_, ts1, hend, h⟩ := h
          cases Parser.pure_eq_ok.mp h
          exact .close hnls hbrace (endLine_eq_ok.mp hend)
        · exact (errorf_eq_ok.mp h).elim
        · have hident := not_not.mp hident
          obtain ⟨nls, hnls, rfl⟩ := (dropWhile_newline_eq (by simp [hident])).mp hts
          rw [Parser.bind_eq_ok] at h
          obtain ⟨type, ts1, htype, h⟩ := h
          rw [Parser.bind_eq_ok] at h
          obtain ⟨_, ts2, hend, h⟩ := h
          rw [Parser.bind_eq_ok] at h
          obtain ⟨fields, ts3, hfields, h⟩ := h
          cases Parser.pure_eq_ok.mp h
          have htype := typ_eq_ok.mp htype
          have hend := endLine_eq_ok.mp hend
          refine .field hnls hident htype hend ((ih ?_).mp hfields)
          have := htype.length_lt
          have := hend.length_le
          simp only [List.length_append, List.length_cons] at hfuel
          omega
      · rintro (⟨hnl, hr, h⟩ | ⟨hnl, ht, htype, hend, h⟩)
        · refine ⟨_, _, (dropWhile_newline_eq (by simp [hr])).mpr ⟨_, hnl, rfl⟩, by simp [hr], ?_⟩
          rw [if_pos hr]
          exact Parser.bind_eq_ok.mpr ⟨_, _, endLine_eq_ok.mpr h, rfl⟩
        · refine ⟨_, _, (dropWhile_newline_eq (by simp [ht])).mpr ⟨_, hnl, rfl⟩, by simp [ht], ?_⟩
          rw [if_neg (by simp [ht]), if_neg (by simp [ht])]
          refine Parser.bind_eq_ok.mpr ⟨_, _, typ_eq_ok.mpr htype, ?_⟩
          refine Parser.bind_eq_ok.mpr ⟨_, _, endLine_eq_ok.mpr hend, ?_⟩
          refine Parser.bind_eq_ok.mpr ⟨_, _, (ih ?_).mpr h, rfl⟩
          have := htype.length_lt
          have := hend.length_le
          simp only [List.length_append, List.length_cons] at hfuel
          omega
    · intro t r' heof h
      rw [if_neg (by simp [heof]), if_pos (by simp [heof])] at h
      exact errorf_eq_ok.mp h

/-- **Fields.** -/
theorem fields_eq_ok {fs : List Field} : fields file ts = .ok (fs, rest) ↔ DerivesFields ts fs rest :=
  fieldsFrom_eq_ok ts.length le_rfl

theorem DerivesFields.length_le {fs : List Field} (h : DerivesFields ts fs rest) :
    rest.length ≤ ts.length := by
  induction h with
  | close _ _ h =>
    have := h.length_le
    simp only [List.length_append, List.length_cons]
    omega
  | field _ _ htype hend _ ih =>
    have := htype.length_lt
    have := hend.length_le
    simp only [List.length_append, List.length_cons]
    omega

/-- **Messages.** -/
theorem message_eq_ok {m : Message} :
    message file ts = .ok (m, rest) ↔ DerivesMessage ts m rest := by
  unfold message
  constructor
  · intro h
    rw [Parser.bind_eq_ok] at h
    obtain ⟨name, ts1, hname, h⟩ := h
    obtain ⟨rfl, hnamek⟩ := (expect_eq_ok (by simp)).mp hname
    rw [Parser.bind_eq_ok] at h
    obtain ⟨eq, ts2, heq, h⟩ := h
    obtain ⟨rfl, heqk⟩ := (expect_eq_ok (by simp)).mp heq
    rw [Parser.bind_eq_ok] at h
    obtain ⟨num, ts3, hnum, h⟩ := h
    obtain ⟨rfl, hnumk⟩ := (expect_eq_ok (by simp)).mp hnum
    cases hid : parseNum num.text 32 with
    | none =>
      rw [hid] at h
      exact (errorf_eq_ok.mp h).elim
    | some id =>
      rw [hid] at h
      simp only at h
      obtain ⟨hid, hfits⟩ := (parseNum_eq_some (by omega)).mp hid
      rw [Parser.bind_eq_ok] at h
      obtain ⟨l, ts4, hl, h⟩ := h
      obtain ⟨rfl, hlk⟩ := (expect_eq_ok (by simp)).mp hl
      rw [Parser.bind_eq_ok] at h
      obtain ⟨fs, ts5, hfs, h⟩ := h
      cases Parser.pure_eq_ok.mp h
      exact .message hnamek heqk hnumk hid hfits hlk (fields_eq_ok.mp hfs)
  · rintro ⟨hname, heq, hnum, hid, hfits, hl, h⟩
    refine Parser.bind_eq_ok.mpr ⟨_, _, (expect_eq_ok (by simp)).mpr ⟨rfl, hname⟩, ?_⟩
    refine Parser.bind_eq_ok.mpr ⟨_, _, (expect_eq_ok (by simp)).mpr ⟨rfl, heq⟩, ?_⟩
    refine Parser.bind_eq_ok.mpr ⟨_, _, (expect_eq_ok (by simp)).mpr ⟨rfl, hnum⟩, ?_⟩
    rw [(parseNum_eq_some (by omega)).mpr ⟨hid, hfits⟩]
    refine Parser.bind_eq_ok.mpr ⟨_, _, (expect_eq_ok (by simp)).mpr ⟨rfl, hl⟩, ?_⟩
    exact Parser.bind_eq_ok.mpr ⟨_, _, fields_eq_ok.mpr h, rfl⟩

theorem DerivesMessage.length_le {m : Message} (h : DerivesMessage ts m rest) :
    rest.length ≤ ts.length := by
  cases h with
  | message _ _ _ _ _ _ h =>
    have := h.length_le
    simp only [List.length_cons]
    omega

theorem Ended.cons_iff : Ended (t :: ts) ↔ (t.kind = .eof ∧ ts = []) ∨ (t.kind ≠ .eof ∧ Ended ts) := by
  constructor
  · rintro (h | ⟨h, hts⟩)
    · exact .inl ⟨h, rfl⟩
    · exact .inr ⟨h, hts⟩
  · rintro (⟨h, rfl⟩ | ⟨h, hts⟩)
    · exact .eof h
    · exact .cons h hts

theorem messagesFrom_eq_ok {ms : List Message} (fuel : Nat) {ts : List Token} (hended : Ended ts)
    (hfuel : ts.length ≤ fuel) :
    (∃ rest, messagesFrom file fuel ts = .ok (ms, rest)) ↔ DerivesMessages ts ms := by
  induction fuel generalizing ts ms with
  | zero => cases hended <;> simp at hfuel
  | succ fuel ih =>
    have hskipped := hended.dropWhile_newline.1
    simp only [messagesFrom, skipNewlines_bind, Parser.bind_eq_ok, next_eq_ok]
    constructor
    -- by the first token that is not a newline
    · rintro ⟨rest, t, ts1, ⟨tail, hts, rfl⟩, h⟩
      rw [hts] at hskipped
      split_ifs at h with heof hpackage hmessage
      · obtain ⟨nls, hnls, rfl⟩ := (dropWhile_newline_eq (by simp [heof])).mp hts
        rcases Ended.cons_iff.mp hskipped with ⟨-, rfl⟩ | ⟨hne, -⟩
        · cases Parser.pure_eq_ok.mp h
          exact .eof hnls heof
        · exact absurd heof hne
      · exact (errorf_eq_ok.mp h).elim
      · exact (errorf_eq_ok.mp h).elim
      · simp only [not_or, not_not] at hmessage
        obtain ⟨nls, hnls, rfl⟩ := (dropWhile_newline_eq (by simp [hmessage])).mp hts
        rcases Ended.cons_iff.mp hskipped with ⟨h', -⟩ | ⟨-, htail⟩
        · exact absurd h' heof
        rw [Parser.bind_eq_ok] at h
        obtain ⟨m, ts2, hm, h⟩ := h
        rw [Parser.bind_eq_ok] at h
        obtain ⟨ms, ts3, hms, h⟩ := h
        cases Parser.pure_eq_ok.mp h
        have hended2 := (runs_message htail).of_ok hm
        simp only [List.length_append, List.length_cons] at hfuel
        have hms := (ih hended2.1 (by omega)).mp ⟨_, hms⟩
        exact .message hnls hmessage.1 hmessage.2 (message_eq_ok.mp hm) hms
    · intro h
      cases h with
      | @eof nls t hnl ht =>
        have hts : (nls ++ [t]).dropWhile (·.kind = .newline) = [t] :=
          dropWhile_newlines_append hnl (by simp [ht])
        exact ⟨[t], t, [t], ⟨[], hts, by rw [if_pos ht, hts]⟩, by rw [if_pos ht]; rfl⟩
      | @message nls tail ts1 t m ms hnl ht htext hm h =>
        have hts : (nls ++ t :: tail).dropWhile (·.kind = .newline) = t :: tail :=
          dropWhile_newlines_append hnl (by simp [ht])
        rw [hts] at hskipped
        rcases Ended.cons_iff.mp hskipped with ⟨h', -⟩ | ⟨hne, htail⟩
        · rw [ht] at h'
          cases h'
        have hm : message file tail = .ok (m, ts1) := message_eq_ok.mpr hm
        have hended1 := (runs_message htail).of_ok hm
        simp only [List.length_append, List.length_cons] at hfuel
        obtain ⟨rest, hms⟩ := (ih hended1.1 (by omega)).mpr h
        refine ⟨rest, t, tail, ⟨tail, hts, by rw [if_neg hne]⟩, ?_⟩
        rw [if_neg hne, if_neg (by simp [htext]), if_neg (by simp [ht, htext])]
        exact Parser.bind_eq_ok.mpr ⟨m, ts1, hm, Parser.bind_eq_ok.mpr ⟨ms, rest, hms, rfl⟩⟩

/-- **Files**, on the tokens of `lex`. -/
theorem schema_eq_ok {s : Schema} (hended : Ended ts) :
    (∃ rest, schema file ts = .ok (s, rest)) ↔ DerivesSchema file ts s := by
  have hskipped := hended.dropWhile_newline.1
  unfold schema
  simp only [skipNewlines_bind]
  constructor
  · rintro ⟨rest, h⟩
    rw [next_bind_eq_ok] at h
    · obtain ⟨t, tail, hts, heof, h⟩ := h
      rw [hts] at hskipped
      split_ifs at h with hpackage
      · exact (errorf_eq_ok.mp h).elim
      · simp only [not_or, not_not] at hpackage
        obtain ⟨nls, hnls, rfl⟩ := (dropWhile_newline_eq (by simp [hpackage])).mp hts
        rcases Ended.cons_iff.mp hskipped with ⟨h', -⟩ | ⟨-, htail⟩
        · exact absurd h' heof
        rw [Parser.bind_eq_ok] at h
        obtain ⟨name, ts1, hname, h⟩ := h
        have hended1 := (runs_expect htail (by simp)).of_ok hname
        obtain ⟨rfl, hkind⟩ := (expect_eq_ok (by simp)).mp hname
        rw [Parser.bind_eq_ok] at h
        obtain ⟨_, ts2, hend, h⟩ := h
        have hended2 := (runs_endLine hended1.1).of_ok hend
        rw [Parser.bind_eq_ok] at h
        obtain ⟨ms, ts3, hms, h⟩ := h
        cases Parser.pure_eq_ok.mp h
        exact .schema hnls hpackage.1 hpackage.2 hkind (endLine_eq_ok.mp hend)
          ((messagesFrom_eq_ok _ hended2.1 le_rfl).mp ⟨_, hms⟩)
    · intro t r' heof h'
      rw [if_pos (by simp [heof])] at h'
      exact errorf_eq_ok.mp h'
  · intro h
    cases h with
    | @schema nls tail ts1 t name ms hnl ht htext hname hend h =>
      have hnotnl : t.kind ≠ .newline := by simp [ht]
      have hne : t.kind ≠ .eof := by simp [ht]
      rw [dropWhile_newlines_append hnl hnotnl] at hskipped ⊢
      rcases Ended.cons_iff.mp hskipped with ⟨h', -⟩ | ⟨-, hended1⟩
      · exact absurd h' hne
      have hname : expect file .ident "package name" (name :: tail) = .ok (name, tail) :=
        (expect_eq_ok (by simp)).mpr ⟨rfl, hname⟩
      have hended2 := ((runs_expect hended1 (by simp)).of_ok hname).1
      have hend : endLine file "package name" tail = .ok ((), ts1) := endLine_eq_ok.mpr hend
      have hended3 := ((runs_endLine hended2).of_ok hend).1
      obtain ⟨rest, hms⟩ : ∃ rest, messages file ts1 = .ok (ms, rest) :=
        (messagesFrom_eq_ok ts1.length hended3 le_rfl).mpr h
      refine ⟨rest, Parser.bind_eq_ok.mpr ⟨t, _, next_eq_ok.mpr ⟨_, rfl, (if_neg hne).symm⟩, ?_⟩⟩
      rw [if_neg (by simp [ht, htext])]
      refine Parser.bind_eq_ok.mpr ⟨name, _, hname, Parser.bind_eq_ok.mpr ⟨(), _, hend, ?_⟩⟩
      exact Parser.bind_eq_ok.mpr ⟨ms, rest, hms, rfl⟩

/-- **`parse` accepts its grammar**: for every byte string it terminates, and returns a schema when and
    only when the bytes lex to tokens that derive it. -/
theorem parse_accepts_grammar (file : String) (src : List UInt8) :
    (∀ e, parse file src = .error e → e.msg ≠ .stuck) ∧
    ∀ s, parse file src = .ok s ↔ ∃ ts, Lexes 1 1 src ts ∧ DerivesSchema file ts s := by
  refine ⟨fun e => parse_ne_stuck, fun s => ?_⟩
  rw [parse_eq]
  constructor
  · intro h
    cases hlex : lex file src with
    | error e =>
      rw [hlex] at h
      cases h
    | ok ts =>
      rw [hlex] at h
      obtain ⟨⟨s, rest⟩, hs, rfl⟩ := map_eq_ok.mp h
      have hlexes := lex_eq_ok.mp hlex
      exact ⟨ts, hlexes, (schema_eq_ok hlexes.ended).mp ⟨rest, hs⟩⟩
  · rintro ⟨ts, hlexes, hs⟩
    rw [lex_eq_ok.mpr hlexes]
    obtain ⟨rest, hrest⟩ := (schema_eq_ok hlexes.ended).mpr hs
    exact map_eq_ok.mpr ⟨_, hrest, rfl⟩

/-- A file with a comment, an array, a name of another message and a hex type ID, whose last line
    ends at the end of the file. -/
def sampleFile : List UInt8 :=
  "package p # demo\nmessage A = 0x1F \x7b\n  x [2]u8\n  to B\n\x7d".toList.map fun c =>
    UInt8.ofNat c.toNat

/-- What the file declares. -/
def sampleSchema : Schema :=
  ⟨"f", "p", ⟨1, 9⟩, [⟨"A", 31, [⟨"x", .array 2 (.scalar .u8 ⟨3, 8⟩) ⟨3, 5⟩, ⟨3, 3⟩⟩,
    ⟨"to", .ref "B" ⟨4, 6⟩, ⟨4, 3⟩⟩], ⟨2, 9⟩, ⟨2, 13⟩⟩]⟩

theorem parse_accepts_grammar_sample : parse "f" sampleFile = .ok sampleSchema ∧
    ∃ ts, Lexes 1 1 sampleFile ts ∧ DerivesSchema "f" ts sampleSchema := by
  have hparse : parse "f" sampleFile = .ok sampleSchema := by decide +kernel
  exact ⟨hparse, ((parse_accepts_grammar "f" sampleFile).2 sampleSchema).mp hparse⟩

end GoIpc.Schema
