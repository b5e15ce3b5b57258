import GoIpc.Lib.Utf8
import Mathlib.Data.List.TakeWhile

namespace GoIpc.Schema

open GoIpc.Lib

/-!
# The tokens of a schema file

`lex` cuts the bytes of a schema file into tokens.  `Lexes` is the lexical grammar: blanks and comments
between tokens, words as maximal runs of letters, digits and `_`, classified by their first character,
and five punctuation characters.  It is written with the characters themselves and shares no
definition with `lex`.

* `lex_eq_ok` — `lex` returns the tokens of the lexical grammar, and nothing else.
-/

/-! ### The lexer -/

/-- A line and a column, both from 1. -/
structure Pos where
  line : Nat
  col : Nat
deriving DecidableEq

inductive TokKind
  | eof
  | newline
  | ident
  | number
  | lbrace
  | rbrace
  | lbrack
  | rbrack
  | eq
deriving DecidableEq

structure Token where
  kind : TokKind
  text : String
  pos : Pos
deriving DecidableEq

/-- What is wrong with a schema file.  `stuck` is for a loop that does not end. -/
inductive Msg
  /-- unexpected character %q -/
  | unexpectedCharacter (r : Nat)
  /-- expected %s, found %s -/
  | expected (what found : String)
  /-- expected newline after %s, found %s -/
  | expectedNewline (after found : String)
  /-- package is already declared -/
  | packageAgain
  /-- type ID %s is not a u32 -/
  | notU32 (text : String)
  /-- array length %s is too large -/
  | tooLarge (text : String)
  | stuck
deriving DecidableEq

structure Error where
  file : String
  pos : Pos
  msg : Msg
deriving DecidableEq

def isIdentStart (r : Nat) : Bool :=
  r = 95 || (97 ≤ r && r ≤ 122) || (65 ≤ r && r ≤ 90)

def isDigit (r : Nat) : Bool := 48 ≤ r && r ≤ 57

/-- A byte of a name or a number. -/
def isWord (b : UInt8) : Bool := isIdentStart b.toNat || isDigit b.toNat

/-- A Go string of ASCII bytes. -/
def textOf (bs : List UInt8) : String := String.ofList (bs.map (fun b => Char.ofNat b.toNat))

/-- The tokens that are one punctuation character. -/
def punct (r : Nat) : Option TokKind :=
  if r = 123 then some .lbrace
  else if r = 125 then some .rbrace
  else if r = 91 then some .lbrack
  else if r = 93 then some .rbrack
  else if r = 61 then some .eq
  else none

theorem drop_decodeRune_lt (a : UInt8) (bs : List UInt8) :
    ((a :: bs).drop (decodeRune (a :: bs)).2).length < (a :: bs).length := by
  obtain ⟨n, hn, -⟩ := decodeRune_cons a bs
  rw [hn]
  simp only [List.drop_succ_cons, List.length_drop, List.length_cons]
  omega

variable {bs : List UInt8} {b : UInt8}

/-- An ASCII character is its byte. -/
theorem rune_ascii {a : UInt8} (h : (decodeRune (a :: bs)).1 < 0x80) :
    decodeRune (a :: bs) = (a.toNat, 1) := by
  obtain ⟨n, hn, -, -, hlow, hhigh⟩ := decodeRune_cons a bs
  rcases UInt8.lt_or_le a 0x80 with ha | ha
  · obtain ⟨hr, rfl⟩ := hlow ha
    exact Prod.ext hr hn
  · exact absurd (hhigh ha) (by omega)

theorem isWord_of_rune {a : UInt8}
    (h : (isIdentStart (decodeRune (a :: bs)).1 || isDigit (decodeRune (a :: bs)).1) = true) :
    isWord a = true ∧ decodeRune (a :: bs) = (a.toNat, 1) := by
  have hlt : (decodeRune (a :: bs)).1 < 0x80 := by
    simp only [isIdentStart, isDigit, Bool.or_eq_true, Bool.and_eq_true, decide_eq_true_eq] at h
    omega
  have heq := rune_ascii hlt
  rw [heq] at h
  exact ⟨h, heq⟩

theorem dropWhile_isWord_lt {a : UInt8} (h : isWord a = true) :
    ((a :: bs).dropWhile isWord).length < (a :: bs).length := by
  rw [List.dropWhile_cons_of_pos h]
  have := (List.dropWhile_sublist (p := isWord) (l := bs)).length_le
  simp only [List.length_cons]
  omega

/-- A comment runs to the end of the line; the loop steps by characters. -/
def skipComment : List UInt8 → List UInt8
  | [] => []
  | a :: bs => if a = 10 then a :: bs else skipComment ((a :: bs).drop (decodeRune (a :: bs)).2)
termination_by src => src.length
decreasing_by exact drop_decodeRune_lt a bs

/-- A comment ends at the first newline byte. -/
theorem skipComment_eq (src : List UInt8) : skipComment src = src.dropWhile (· ≠ 10) := by
  induction src using skipComment.induct with
  | case1 => simp [skipComment]
  | case2 bs => simp [skipComment]
  | case3 a bs ha ih =>
    rw [skipComment, if_neg ha, ih]
    obtain ⟨n, hn, -, htail, -⟩ := decodeRune_cons a bs
    rw [hn, List.drop_succ_cons, List.dropWhile_cons_of_pos (by simpa using ha)]
    -- the bytes that belong to the character are no newlines
    conv_rhs => rw [← List.take_append_drop n bs]
    rw [List.dropWhile_append_of_pos]
    intro b hb
    have hle := htail b hb
    simp only [ne_eq, decide_not, Bool.not_eq_eq_eq_not, Bool.not_true, decide_eq_false_iff_not]
    rintro rfl
    exact absurd hle (by decide)

theorem skipComment_lt {a : UInt8} (h : (decodeRune (a :: bs)).1 = 35) :
    (skipComment (a :: bs)).length < (a :: bs).length := by
  have heq : decodeRune (a :: bs) = (a.toNat, 1) := rune_ascii (by omega)
  rw [heq] at h
  have ha : a ≠ 10 := by
    rintro rfl
    exact absurd h (by decide)
  rw [skipComment_eq, List.dropWhile_cons_of_pos (by simpa using ha)]
  have := (List.dropWhile_sublist (p := fun x : UInt8 => decide (x ≠ 10)) (l := bs)).length_le
  simp only [List.length_cons]
  omega

/-- `lex` from line `line` and column `col` on. -/
def lexFrom (file : String) (line col : Nat) (src : List UInt8) : Except Error (List Token) :=
  match src with
  | [] => .ok [⟨.eof, "", ⟨line, col⟩⟩]
  | a :: bs =>
      let r := (decodeRune (a :: bs)).1
      if r = 10 then
        (lexFrom file (line + 1) 1 bs).map (⟨.newline, "\n", ⟨line, col⟩⟩ :: ·)
      else if r = 32 ∨ r = 9 ∨ r = 13 then lexFrom file line (col + 1) bs
      else if hash : r = 35 then lexFrom file line col (skipComment (a :: bs))
      else if hword : isIdentStart r || isDigit r then
        let word := (a :: bs).takeWhile isWord
        (lexFrom file line (col + word.length) ((a :: bs).dropWhile isWord)).map
          (⟨if isDigit r then .number else .ident, textOf word, ⟨line, col⟩⟩ :: ·)
      else
        match punct r with
        | some kind =>
            (lexFrom file line (col + 1) ((a :: bs).drop (decodeRune (a :: bs)).2)).map
              (⟨kind, String.ofList [Char.ofNat r], ⟨line, col⟩⟩ :: ·)
        | none => .error ⟨file, ⟨line, col⟩, .unexpectedCharacter r⟩
termination_by src.length
decreasing_by
  · simp
  · simp
  · exact skipComment_lt hash
  · exact dropWhile_isWord_lt (isWord_of_rune hword).1
  · exact drop_decodeRune_lt a bs

def lex (file : String) (src : List UInt8) : Except Error (List Token) := lexFrom file 1 1 src

/-! ### The lexical grammar -/

/-- `[0-9]` -/
def Digit (b : UInt8) : Prop := 48 ≤ b.toNat ∧ b.toNat ≤ 57

/-- `[A-Za-z0-9_]` -/
def WordByte (b : UInt8) : Prop :=
  65 ≤ b.toNat ∧ b.toNat ≤ 90 ∨ 97 ≤ b.toNat ∧ b.toNat ≤ 122 ∨ Digit b ∨ b.toNat = 95

/-- A word that starts with `b` is a number or a name. -/
inductive WordKind (b : UInt8) : TokKind → Prop
  | number (h : Digit b) : WordKind b .number
  | ident (h : ¬ Digit b) : WordKind b .ident

/-- The five punctuation characters. -/
inductive Punct : UInt8 → TokKind → String → Prop
  | lbrace : Punct 123 .lbrace "\x7b"
  | rbrace : Punct 125 .rbrace "\x7d"
  | lbrack : Punct 91 .lbrack "["
  | rbrack : Punct 93 .rbrack "]"
  | eq : Punct 61 .eq "="

/-- The characters of `text` are the bytes `bs`. -/
def Spelled (bs : List UInt8) (text : String) : Prop :=
  text.toList.map Char.toNat = bs.map UInt8.toNat

/-- `rest` does not go on with what `p` holds of. -/
def Ends (p : UInt8 → Prop) (rest : List UInt8) : Prop := ∀ b bs, rest = b :: bs → ¬ p b

/-- The tokens of a byte string that starts at line `l` and column `c`. -/
inductive Lexes : Nat → Nat → List UInt8 → List Token → Prop
  | eof (l c : Nat) : Lexes l c [] [⟨.eof, "", ⟨l, c⟩⟩]
  | newline {l c : Nat} {bs : List UInt8} {ts : List Token} (h : Lexes (l + 1) 1 bs ts) :
      Lexes l c (10 :: bs) (⟨.newline, "\n", ⟨l, c⟩⟩ :: ts)
  | blank {l c : Nat} {b : UInt8} {bs : List UInt8} {ts : List Token} (hb : b = 32 ∨ b = 9 ∨ b = 13)
      (h : Lexes l (c + 1) bs ts) : Lexes l c (b :: bs) ts
  /-- from `#` to the end of the line -/
  | comment {l c : Nat} {cs rest : List UInt8} {ts : List Token} (hcs : ∀ b ∈ cs, b ≠ 10)
      (hend : Ends (· ≠ 10) rest) (h : Lexes l c rest ts) : Lexes l c (35 :: cs ++ rest) ts
  /-- a maximal run of letters, digits and `_` -/
  | word {l c : Nat} {b : UInt8} {bs rest : List UInt8} {kind : TokKind} {text : String}
      {ts : List Token} (hword : ∀ x ∈ b :: bs, WordByte x) (hend : Ends WordByte rest)
      (hkind : WordKind b kind) (htext : Spelled (b :: bs) text)
      (h : Lexes l (c + (bs.length + 1)) rest ts) :
      Lexes l c (b :: bs ++ rest) (⟨kind, text, ⟨l, c⟩⟩ :: ts)
  | punct {l c : Nat} {b : UInt8} {bs : List UInt8} {kind : TokKind} {text : String}
      {ts : List Token} (hb : Punct b kind text) (h : Lexes l (c + 1) bs ts) :
      Lexes l c (b :: bs) (⟨kind, text, ⟨l, c⟩⟩ :: ts)

/-! ### The classes of the lexer are those of the grammar -/

theorem isDigit_iff : isDigit b.toNat = true ↔ Digit b := by
  simp only [isDigit, Digit, Bool.and_eq_true, decide_eq_true_eq]

theorem isWord_iff : isWord b = true ↔ WordByte b := by
  simp only [isWord, isIdentStart, isDigit, WordByte, Digit, Bool.or_eq_true, Bool.and_eq_true,
    decide_eq_true_eq]
  omega

theorem wordKind_iff {kind : TokKind} :
    WordKind b kind ↔ kind = if isDigit b.toNat then .number else .ident := by
  by_cases hd : Digit b
  · rw [if_pos (isDigit_iff.mpr hd)]
    exact ⟨fun h => h.rec (fun _ => rfl) (absurd hd), fun h => h ▸ .number hd⟩
  · rw [if_neg (mt isDigit_iff.mp hd)]
    exact ⟨fun h => h.rec (fun h => absurd h hd) (fun _ => rfl), fun h => h ▸ .ident hd⟩

/-- `punct` knows the five punctuation characters and no other. -/
theorem punct_iff {kind : TokKind} {text : String} :
    Punct b kind text ↔ punct b.toNat = some kind ∧ text = textOf [b] := by
  have hbyte : ∀ n : UInt8, b.toNat = n.toNat → b = n := fun n => UInt8.toNat_inj.mp
  constructor
  · rintro (_ | _ | _ | _ | _) <;> exact ⟨rfl, rfl⟩
  · rintro ⟨h, rfl⟩
    unfold punct at h
    split at h
    · next hb =>
      cases h
      rw [hbyte 123 hb]
      exact .lbrace
    split at h
    · next hb =>
      cases h
      rw [hbyte 125 hb]
      exact .rbrace
    split at h
    · next hb =>
      cases h
      rw [hbyte 91 hb]
      exact .lbrack
    split at h
    · next hb =>
      cases h
      rw [hbyte 93 hb]
      exact .rbrack
    split_ifs at h with hb
    cases h
    rw [hbyte 61 hb]
    exact .eq

/-- A Go string of bytes is spelled by them, and by nothing else. -/
theorem spelled_iff {text : String} : Spelled bs text ↔ text = textOf bs := by
  have hcode : ∀ n : Fin 256, (Char.ofNat n).toNat = n := by decide +kernel
  have hchar : ∀ b : UInt8, (Char.ofNat b.toNat).toNat = b.toNat := fun b => hcode ⟨_, b.toNat_lt⟩
  have htext : Spelled bs (textOf bs) := by
    rw [Spelled, textOf, String.toList_ofList, List.map_map]
    exact List.map_congr_left fun b _ => hchar b
  constructor
  · intro h
    have hinj : Function.Injective (List.map Char.toNat) :=
      List.map_injective_iff.mpr fun _ _ => Char.toNat_inj.mp
    exact String.toList_inj.mp (hinj (h.trans htext.symm))
  · rintro rfl
    exact htext

theorem takeWhile_dropWhile_of_ends {p : UInt8 → Bool} {ws rest : List UInt8}
    (hws : ∀ x ∈ ws, p x = true) (hend : Ends (fun b => p b = true) rest) :
    (ws ++ rest).takeWhile p = ws ∧ (ws ++ rest).dropWhile p = rest := by
  rw [List.takeWhile_append_of_pos hws, List.dropWhile_append_of_pos hws]
  cases rest with
  | nil => simp
  | cons b bs =>
    have hb := hend b bs rfl
    simp [hb]

theorem ends_dropWhile (p : UInt8 → Bool) (src : List UInt8) :
    Ends (fun b => p b = true) (src.dropWhile p) := by
  intro b bs h
  have := List.head?_dropWhile_not p src
  rw [h] at this
  simpa using this

theorem Ends.congr {p q : UInt8 → Prop} {rest : List UInt8} (h : Ends p rest)
    (hpq : ∀ b, q b → p b) : Ends q rest :=
  fun b bs heq hq => h b bs heq (hpq b hq)

theorem map_eq_ok {ε α β : Type} {x : Except ε α} {f : α → β} {y : β} :
    x.map f = .ok y ↔ ∃ a, x = .ok a ∧ f a = y := by
  cases x <;> simp [Except.map]

theorem isWord_eq (b : UInt8) : isWord b = (isIdentStart b.toNat || isDigit b.toNat) := rfl

/-- `lex` by the first byte: a byte that is not ASCII starts no token. -/
theorem lexFrom_cons (file : String) (l c : Nat) (a : UInt8) (bs : List UInt8) :
    lexFrom file l c (a :: bs) =
      if a = 10 then (lexFrom file (l + 1) 1 bs).map (⟨.newline, "\n", ⟨l, c⟩⟩ :: ·)
      else if a = 32 ∨ a = 9 ∨ a = 13 then lexFrom file l (c + 1) bs
      else if a = 35 then lexFrom file l c (bs.dropWhile (· ≠ 10))
      else if isWord a then
        (lexFrom file l (c + ((a :: bs).takeWhile isWord).length) ((a :: bs).dropWhile isWord)).map
          (⟨if isDigit a.toNat then .number else .ident, textOf ((a :: bs).takeWhile isWord), ⟨l, c⟩⟩ :: ·)
      else
        match punct a.toNat with
        | some kind => (lexFrom file l (c + 1) bs).map (⟨kind, textOf [a], ⟨l, c⟩⟩ :: ·)
        | none => .error ⟨file, ⟨l, c⟩, .unexpectedCharacter (decodeRune (a :: bs)).1⟩ := by
  have hbyte : ∀ b : UInt8, a.toNat = b.toNat ↔ a = b := fun b => UInt8.toNat_inj
  rw [lexFrom]
  by_cases hlt : (decodeRune (a :: bs)).1 < 0x80
  · have heq := rune_ascii hlt
    simp only [heq, dite_eq_ite]
    have h10 : a.toNat = 10 ↔ a = 10 := hbyte 10
    have h32 : a.toNat = 32 ↔ a = 32 := hbyte 32
    have h9 : a.toNat = 9 ↔ a = 9 := hbyte 9
    have h13 : a.toNat = 13 ↔ a = 13 := hbyte 13
    have h35 : a.toNat = 35 ↔ a = 35 := hbyte 35
    simp only [h10, h32, h9, h13, h35, ← isWord_eq, List.drop_succ_cons, List.drop_zero]
    split_ifs with h1 h2 h3
    · rfl
    · rfl
    · subst h3
      rw [skipComment_eq, List.dropWhile_cons_of_pos (by decide)]
    all_goals rfl
  · -- a character beyond ASCII is in no class
    have hhigh : (0x80 : UInt8) ≤ a := by
      rcases UInt8.lt_or_le a 0x80 with ha | ha
      · obtain ⟨n, -, -, -, hlow, -⟩ := decodeRune_cons a bs
        rw [(hlow ha).1] at hlt
        exact absurd ha hlt
      · exact ha
    have hle : 0x80 ≤ a.toNat := hhigh
    have hnot : ∀ r : Nat, 0x80 ≤ r → (isIdentStart r || isDigit r) = false ∧ punct r = none := by
      intro r hr
      refine ⟨?_, ?_⟩
      · simp only [isIdentStart, isDigit, Bool.or_eq_false_iff, Bool.and_eq_false_iff,
          decide_eq_false_iff_not]
        omega
      · simp only [punct]
        split_ifs <;> first | omega | rfl
    generalize (decodeRune (a :: bs)).1 = r at hlt
    obtain ⟨hword, hpunct⟩ := hnot r (by omega)
    obtain ⟨hword', hpunct'⟩ := hnot a.toNat hle
    simp only [dite_eq_ite, hword, hpunct, isWord_eq, hword', hpunct', ← hbyte]
    have : ∀ n, n < 0x80 → r ≠ n ∧ a.toNat ≠ n := fun n hn => ⟨by omega, by omega⟩
    simp [this 10, this 32, this 9, this 13, this 35]

/-- What `lex` returns is what the lexical grammar derives. -/
theorem lexes_of_lexFrom {file : String} {l c : Nat} {src : List UInt8} {ts : List Token}
    (h : lexFrom file l c src = .ok ts) : Lexes l c src ts := by
  match src with
  | [] =>
    rw [lexFrom] at h
    cases h
    exact .eof l c
  | a :: bs =>
    rw [lexFrom_cons] at h
    generalize hkind : (if isDigit a.toNat then TokKind.number else .ident) = kind at h
    -- a newline, a blank, a comment, a word or punctuation
    split_ifs at h with h1 h2 h3 h4
    · obtain ⟨ts', hts, rfl⟩ := map_eq_ok.mp h
      subst h1
      exact .newline (lexes_of_lexFrom hts)
    · exact .blank h2 (lexes_of_lexFrom h)
    · subst h3
      have hcs : ∀ b ∈ bs.takeWhile (· ≠ 10), b ≠ 10 := by
        intro b hb
        simpa using List.mem_takeWhile_imp hb
      have hend := (ends_dropWhile (· ≠ 10) bs).congr (q := (· ≠ 10)) (by simp)
      have hrest := Lexes.comment hcs hend (lexes_of_lexFrom h)
      rwa [List.cons_append, List.takeWhile_append_dropWhile] at hrest
    · obtain ⟨ts', hts, rfl⟩ := map_eq_ok.mp h
      rw [List.takeWhile_cons_of_pos h4] at hts ⊢
      rw [List.dropWhile_cons_of_pos h4] at hts
      have hword : ∀ x ∈ a :: bs.takeWhile isWord, WordByte x := by
        intro x hx
        rcases List.mem_cons.mp hx with rfl | hx
        · exact isWord_iff.mp h4
        · exact isWord_iff.mp (List.mem_takeWhile_imp hx)
      have hend := (ends_dropWhile isWord bs).congr fun _ => isWord_iff.mpr
      have hrest := Lexes.word hword hend (wordKind_iff.mpr hkind.symm) (spelled_iff.mpr rfl)
        (lexes_of_lexFrom hts)
      rwa [List.cons_append, List.takeWhile_append_dropWhile] at hrest
    · split at h
      · next kind hkind =>
        obtain ⟨ts', hts, rfl⟩ := map_eq_ok.mp h
        exact .punct (punct_iff.mpr ⟨hkind, rfl⟩) (lexes_of_lexFrom hts)
      · cases h
termination_by src.length
decreasing_by
  · simp
  · simp
  · exact Nat.lt_succ_of_le (List.dropWhile_sublist _).length_le
  · exact Nat.lt_succ_of_le (List.dropWhile_sublist _).length_le
  · simp

theorem punct_cases {kind : TokKind} (h : punct b.toNat = some kind) :
    b ≠ 10 ∧ ¬ (b = 32 ∨ b = 9 ∨ b = 13) ∧ b ≠ 35 ∧ isWord b = false := by
  have hne : ∀ n : UInt8, punct n.toNat = none → b ≠ n := by
    rintro n hn rfl
    rw [hn] at h
    cases h
  refine ⟨hne 10 (by decide), ?_, hne 35 (by decide), ?_⟩
  · simp [hne 32 (by decide), hne 9 (by decide), hne 13 (by decide)]
  · simp only [punct] at h
    simp only [isWord, isIdentStart, isDigit, Bool.or_eq_false_iff, Bool.and_eq_false_iff,
      decide_eq_false_iff_not]
    split_ifs at h <;> omega

theorem isWord_cases (h : isWord b = true) : b ≠ 10 ∧ ¬ (b = 32 ∨ b = 9 ∨ b = 13) ∧ b ≠ 35 := by
  have hne : ∀ n : UInt8, isWord n = false → b ≠ n := by
    rintro n hn rfl
    rw [hn] at h
    cases h
  refine ⟨hne 10 (by decide), ?_, hne 35 (by decide)⟩
  simp [hne 32 (by decide), hne 9 (by decide), hne 13 (by decide)]

/-- What the lexical grammar derives is what `lex` returns. -/
theorem lexFrom_of_lexes {l c : Nat} {src : List UInt8} {ts : List Token} (file : String)
    (h : Lexes l c src ts) : lexFrom file l c src = .ok ts := by
  induction h with
  | eof l c => rw [lexFrom]
  | newline _ ih => rw [lexFrom_cons, if_pos rfl, ih]; rfl
  | blank hb _ ih =>
    rw [lexFrom_cons, if_neg (by rcases hb with rfl | rfl | rfl <;> decide), if_pos hb, ih]
  | comment hcs hend _ ih =>
    have hend := hend.congr (q := fun b => decide (b ≠ 10) = true) (by simp)
    rw [List.cons_append, lexFrom_cons, if_neg (by decide), if_neg (by decide), if_pos rfl,
      (takeWhile_dropWhile_of_ends (by simpa using hcs) hend).2, ih]
  | word hword hend hkind htext _ ih =>
    obtain rfl := wordKind_iff.mp hkind
    obtain rfl := spelled_iff.mp htext
    have hword := fun x hx => isWord_iff.mpr (hword x hx)
    obtain ⟨htake, hdrop⟩ :=
      takeWhile_dropWhile_of_ends hword (hend.congr fun _ => isWord_iff.mp)
    have hb := hword _ List.mem_cons_self
    obtain ⟨h1, h2, h3⟩ := isWord_cases hb
    rw [List.cons_append] at htake hdrop ⊢
    rw [lexFrom_cons, if_neg h1, if_neg h2, if_neg h3, if_pos hb, htake, hdrop]
    rw [List.length_cons, ih]
    rfl
  | punct hb _ ih =>
    obtain ⟨hkind, rfl⟩ := punct_iff.mp hb
    obtain ⟨h1, h2, h3, h4⟩ := punct_cases hkind
    rw [lexFrom_cons, if_neg h1, if_neg h2, if_neg h3, if_neg (by simp [h4]), hkind, ih]
    rfl

/-- **`lex` accepts its lexical grammar**, byte for byte. -/
theorem lex_eq_ok {file : String} {src : List UInt8} {ts : List Token} :
    lex file src = .ok ts ↔ Lexes 1 1 src ts :=
  ⟨lexes_of_lexFrom, lexFrom_of_lexes file⟩

end GoIpc.Schema
