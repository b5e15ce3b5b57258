import GoIpc.Schema.Order
import Mathlib.Data.List.Nodup

namespace GoIpc.Schema

/-!
# The names in a generated C header

Every name of the header is the package, a fixed part and the lower_snake name of a message.  `names`
compares only the bare lower_snake names.

* `cIdents`, `cTags`, `cMacros` — what `genC` declares at file scope, in the order of the header: ordinary
  identifiers, struct tags and macros;
* `nodup_forms` — names built from words and forms are distinct when no two forms meet;
* `cNames_distinct` — the names of an accepted schema are distinct while no message is called like another
  one with `_size`, `_encode` or `_decode` added, and only then (`noClash_of_nodup`);
* `cNames_clash` — a schema that `Check` accepts, with two declarations of one name.
-/

/-! ### The generated names -/

/-- `strings.ToUpper` of an ASCII name -/
def toUpper (name : String) : String := String.ofList (name.toList.map Char.toUpper)

/-- The functions and types of `cHelpers`, after `PFX_ipcgen_` -/
def helperNames : List String :=
  ["str", "bytes", "float_is_32_bits", "double_is_64_bits", "put_bool", "put_u8", "put_i8", "put_u16",
    "put_i16", "put_u32", "put_i32", "put_u64", "put_i64", "put_f32", "put_f64", "get_u8", "get_i8",
    "get_u16", "get_i16", "get_u32", "get_i32", "get_u64", "get_i64", "get_f32", "get_f64", "addvar",
    "putvar", "getvar", "utf8"]

/-- The structs of `cHelpers`, after `PFX_ipcgen_` -/
def helperStructs : List String := ["str", "bytes"]

/-- The include guard and the macros of `cHelpers`, after `UPFX_IPCGEN_` -/
def helperMacros : List String := ["H", "ESHORT", "ELENGTH", "ETRAILING", "EBOOL", "EUTF8"]

section

variable (s : Schema)

/-- `name` of a message: its struct and typedef -/
def cName (m : Message) : String := s.package ++ "_" ++ snake m.name

/-- `upper` of a message -/
def cUpper (m : Message) : String := toUpper s.package ++ "_" ++ toUpper (snake m.name)

/-- `internal` of a message -/
def cInternal (m : Message) : String := s.package ++ "_ipcgen_" ++ snake m.name

/-- The ordinary identifiers of a message: its typedef and its functions. -/
def messageIdents (m : Message) : List String :=
  [cName s m, cInternal s m ++ "_put", cInternal s m ++ "_get", cName s m ++ "_size", cName s m ++ "_encode",
    cName s m ++ "_decode"]

def messageMacros (m : Message) : List String := [cUpper s m ++ "_TYPE", cUpper s m ++ "_FIXED_SIZE"]

/-- The messages in the order of the header. -/
def Checked.messages (c : Checked) : List Message := c.sorted.filterMap fun i => s.messages[i]?

def cIdents (c : Checked) : List String :=
  helperNames.map (fun x => s.package ++ "_ipcgen_" ++ x) ++ (c.messages s).flatMap (messageIdents s)

def cTags (c : Checked) : List String :=
  helperStructs.map (fun x => s.package ++ "_ipcgen_" ++ x) ++ (c.messages s).map (cName s)

def cMacros (c : Checked) : List String :=
  helperMacros.map (fun x => toUpper s.package ++ "_IPCGEN_" ++ x) ++ (c.messages s).flatMap (messageMacros s)

/-- No message is called like another one with the ending of a function. -/
def NoClash : Prop := ∀ m ∈ s.messages, ∀ o ∈ s.messages, ∀ x ∈ ["_size", "_encode", "_decode"],
  snake o.name ≠ snake m.name ++ x

instance : Decidable (NoClash s) := inferInstanceAs (Decidable (∀ m ∈ s.messages, _))

end

/-! ### Words and forms -/

/-- **Distinct names.**  When no name belongs to two forms, and a form tells the words apart, all names are
    distinct. -/
theorem nodup_forms {φ ω β : Type} {name : φ → ω → β} {forms : List φ} {words : List ω} (hforms : forms.Nodup)
    (hwords : words.Nodup) (hinj : ∀ x a b, name x a = name x b → a = b)
    (h : ∀ x ∈ forms, ∀ y ∈ forms, ∀ a ∈ words, ∀ b ∈ words, name x a = name y b → x = y) :
    (words.flatMap fun a => forms.map fun x => name x a).Nodup := by
  refine List.nodup_flatMap.mpr ⟨fun a ha => ?_, ?_⟩
  · exact hforms.map_on fun x hx y hy => h x hx y hy a ha a ha
  · refine hwords.pairwise_of_forall_ne fun a ha b hb hab => ?_
    intro z hza hzb
    obtain ⟨x, hx, rfl⟩ := List.mem_map.mp hza
    obtain ⟨y, hy, hyx⟩ := List.mem_map.mp hzb
    obtain rfl := h y hy x hx b hb a ha hyx
    exact hab (hinj y b a hyx).symm

/-- Two endings of which neither ends in the other end no common name. -/
theorem append_ne {α : Type} {a b x y : List α} (hxy : ¬ x <:+ y) (hyx : ¬ y <:+ x) : a ++ x ≠ b ++ y := by
  intro h
  rcases List.append_eq_append_iff.mp h with ⟨c, -, hc⟩ | ⟨c, -, hc⟩
  · exact hyx ⟨c, hc.symm⟩
  · exact hxy ⟨c, hc.symm⟩

/-- The part between the package and the word: `_ipcgen_` for what the generator keeps to itself. -/
def between (internal : Bool) : List Char := if internal then "_ipcgen_".toList else "_".toList

theorem between_true : between true = "_ipcgen_".toList := if_pos rfl

theorem between_false : between false = "_".toList := if_neg Bool.false_ne_true

/-- A name of the header: a form is whether it is internal, and its ending. -/
def formed (p : List Char) (x : Bool × List Char) (w : List Char) : List Char :=
  p ++ between x.1 ++ w ++ x.2

theorem formed_injective (p : List Char) (x : Bool × List Char) (a b : List Char)
    (h : formed p x a = formed p x b) : a = b :=
  List.append_cancel_left (List.append_cancel_right h)

/-- An internal name is the name of a message only when the message is called `ipcgen…`. -/
theorem formed_ne {p a b : List Char} {x y : Bool × List Char} (hx : x.1 = true) (hy : y.1 = false)
    (hend : y.2 = [] ∨ y.2.head? = some '_') (hb : ¬ "ipcgen".toList <+: b) :
    formed p x a ≠ formed p y b := by
  intro h
  simp only [formed, between, hx, hy, if_true, List.append_assoc, List.append_cancel_left_eq] at h
  have h' : "ipcgen".toList ++ ('_' :: (a ++ x.2)) = b ++ y.2 := by
    simpa using h
  rcases List.append_eq_append_iff.mp h' with ⟨c, hc, -⟩ | ⟨c, hc, hy2⟩
  · exact hb ⟨c, hc.symm⟩
  · cases c with
    | nil => exact hb ⟨[], by rw [List.append_nil, hc, List.append_nil]⟩
    | cons d ds =>
      rw [hy2, List.cons_append] at hend
      obtain rfl : d = '_' := by simpa using hend
      have hmem : '_' ∈ "ipcgen".toList := by
        rw [hc]
        exact List.mem_append_right b List.mem_cons_self
      exact absurd hmem (by decide)

/-- **The names of a header**: helpers and messages.  What the words have to bring is that none starts with
    `ipcgen` and that no two endings make one name. -/
theorem nodup_names (p : List Char) {helpers words : List (List Char)} {forms : List (Bool × List Char)}
    (hhelpers : helpers.Nodup) (hforms : forms.Nodup) (hwords : words.Nodup)
    (hends : ∀ x ∈ forms, x.2 = [] ∨ x.2.head? = some '_')
    (hhelp : ∀ x ∈ forms, x.1 = true → ∀ h ∈ helpers, ¬ x.2 <:+ h)
    (hipcgen : ∀ w ∈ words, ¬ "ipcgen".toList <+: w)
    (hclash : ∀ x ∈ forms, ∀ y ∈ forms, x.1 = y.1 → x.2 ≠ y.2 → ∀ a ∈ words, ∀ b ∈ words,
      a ++ x.2 ≠ b ++ y.2) :
    (helpers.map (formed p (true, [])) ++ words.flatMap fun w => forms.map fun x => formed p x w).Nodup := by
  refine List.nodup_append.mpr ⟨?_, ?_, ?_⟩
  · exact hhelpers.map (formed_injective p (true, []))
  · refine nodup_forms hforms hwords (formed_injective p) fun x hx y hy a ha b hb h => ?_
    cases hxi : x.1 <;> cases hyi : y.1
    case false.true => exact absurd h.symm (formed_ne hyi hxi (hends x hx) (hipcgen a ha))
    case true.false => exact absurd h (formed_ne hxi hyi (hends y hy) (hipcgen b hb))
    all_goals
      have hsame : x.1 = y.1 := hxi.trans hyi.symm
      refine Prod.ext hsame (by_contra fun hne => hclash x hx y hy hsame hne a ha b hb ?_)
      simpa only [formed, hsame, List.append_assoc, List.append_cancel_left_eq] using h
  · intro z hz z' hz' hzz
    obtain ⟨f, hf, rfl⟩ := List.mem_map.mp hz
    obtain ⟨w, hw, hz'⟩ := List.mem_flatMap.mp hz'
    obtain ⟨x, hx, rfl⟩ := List.mem_map.mp hz'
    cases hxi : x.1
    case false => exact formed_ne rfl hxi (hends x hx) (hipcgen w hw) hzz
    case true =>
      refine hhelp x hx hxi f hf ⟨w, ?_⟩
      simpa only [formed, hxi, List.append_assoc, List.append_cancel_left_eq, List.append_nil]
        using hzz.symm

/-! ### What `names` makes sure of -/

theorem problemsFrom_eq_nil {α : Type} {check : List α → α → List Problem} {before xs : List α}
    (h : problemsFrom check before xs = []) {l r : List α} {x : α} (hx : xs = l ++ x :: r) :
    check (before ++ l) x = [] := by
  induction xs generalizing before l with
  | nil => exact absurd hx (by simp)
  | cons y ys ih =>
    obtain ⟨hy, hys⟩ := List.append_eq_nil_iff.mp h
    cases l with
    | nil =>
      obtain ⟨rfl, -⟩ := List.cons.inj hx
      rwa [List.append_nil]
    | cons z l =>
      obtain ⟨rfl, htail⟩ := List.cons.inj hx
      simpa using ih hys htail

/-- A message of an accepted schema has an UpperCamel name, not reserved, and a lower_snake name that no
    message before it has. -/
theorem messageName_ok {before : List Message} {m : Message} (h : messageNameProblems before m = []) :
    isMessageName m.name = true ∧ hasPrefix (snake m.name) "ipcgen" = false ∧
      ∀ o ∈ before, snake o.name ≠ snake m.name := by
  unfold messageNameProblems at h
  split_ifs at h with hname hreserved
  simp only [Bool.not_eq_true', Bool.or_eq_true, not_or, Bool.not_eq_false, Bool.not_eq_true] at hname hreserved
  refine ⟨hname, hreserved.2, fun o ho hsnake => ?_⟩
  split at h
  · cases h
  · split at h
    · cases h
    · next hnone =>
      have := List.find?_eq_none.mp hnone o (List.mem_reverse.mpr ho)
      simp [hsnake] at this

variable {s : Schema}

theorem names_ok (h : nameProblems s = []) :
    (∀ m ∈ s.messages, isMessageName m.name = true ∧ hasPrefix (snake m.name) "ipcgen" = false) ∧
      (s.messages.map fun m => snake m.name).Nodup := by
  obtain ⟨h, -⟩ := List.append_eq_nil_iff.mp h
  obtain ⟨-, h⟩ := List.append_eq_nil_iff.mp h
  have hone : ∀ {l r m}, s.messages = l ++ m :: r → messageNameProblems l m = [] := by
    intro l r m hm
    have := problemsFrom_eq_nil h hm
    simp only [List.nil_append, List.append_eq_nil_iff] at this
    exact this.1.1
  constructor
  · intro m hm
    obtain ⟨l, r, hlr⟩ := List.append_of_mem hm
    obtain ⟨hname, hipcgen, -⟩ := messageName_ok (hone hlr)
    exact ⟨hname, hipcgen⟩
  · refine List.pairwise_map.mpr (List.pairwise_iff_getElem.mpr fun i j hi hj hij => ?_)
    have hsplit : s.messages = s.messages.take j ++ s.messages[j] :: s.messages.drop (j + 1) := by
      rw [← List.drop_eq_getElem_cons hj, List.take_append_drop]
    refine (messageName_ok (hone hsplit)).2.2 _ ?_
    exact List.mem_take_iff_getElem.mpr ⟨i, by omega, rfl⟩

theorem filterMap_range {α : Type} (l : List α) : (List.range l.length).filterMap (fun i => l[i]?) = l := by
  induction l with
  | nil => rfl
  | cons a l ih =>
    rw [List.length_cons, List.range_succ_eq_map, List.filterMap_cons, List.filterMap_map]
    simpa using ih

/-- The header has every message once. -/
theorem messages_perm {c : Checked} (h : check s = .ok c) : (c.messages s).Perm s.messages := by
  obtain ⟨-, hcycles, hsorted, -⟩ := check_eq_ok h
  have hperm := (sorted_perm hcycles).filterMap fun i => s.messages[i]?
  rw [filterMap_range] at hperm
  rwa [Checked.messages, hsorted]

/-! ### Letters -/

/-- The characters of a lower_snake name. -/
def isSnakeChar (c : Char) : Bool := c.isLower || c.isDigit || c = '_'

variable {c : Char}

theorem forall_ascii {p : Char → Bool} (h : ∀ n < 128, p (Char.ofNat n) = true) (hc : c.toNat < 128) : p c = true := by
  have := h c.toNat hc
  rwa [Char.ofNat_toNat] at this

theorem toNat_lt_of_le {hi : UInt32} (h : c.val ≤ hi) (hhi : hi.toNat < 128) : c.toNat < 128 :=
  lt_of_le_of_lt (UInt32.le_iff_toNat_le.mp h) hhi

theorem toNat_lt_of_isLower (h : c.isLower = true) : c.toNat < 128 :=
  toNat_lt_of_le (of_decide_eq_true (Bool.and_eq_true_iff.mp h).2) (by decide)

theorem toNat_lt_of_isUpper (h : c.isUpper = true) : c.toNat < 128 :=
  toNat_lt_of_le (of_decide_eq_true h).2 (by decide)

theorem toNat_lt_of_isDigit (h : c.isDigit = true) : c.toNat < 128 :=
  toNat_lt_of_le (of_decide_eq_true (Bool.and_eq_true_iff.mp h).2) (by decide)

theorem toLower_alphanum (h : c.isAlphanum = true) : isSnakeChar c.toLower = true := by
  have hkinds : (c.isUpper || c.isLower || c.isDigit) = true := h
  have hc : c.toNat < 128 := by
    simp only [Bool.or_eq_true] at hkinds
    rcases hkinds with (h | h) | h
    · exact toNat_lt_of_isUpper h
    · exact toNat_lt_of_isLower h
    · exact toNat_lt_of_isDigit h
  have := forall_ascii (p := fun c => !c.isAlphanum || isSnakeChar c.toLower) (by decide +kernel) hc
  simpa [h] using this

theorem toLower_toUpper (h : isSnakeChar c = true) : c.toUpper.toLower = c := by
  have hc : c.toNat < 128 := by
    simp only [isSnakeChar, Bool.or_eq_true, decide_eq_true_eq] at h
    rcases h with (h | h) | rfl
    · exact toNat_lt_of_isLower h
    · exact toNat_lt_of_isDigit h
    · decide
  have := forall_ascii (p := fun c => !isSnakeChar c || c.toUpper.toLower = c) (by decide +kernel) hc
  simpa [h] using this

theorem snakeFrom_chars (prev : Option Char) {cs : List Char} (h : ∀ c ∈ cs, c.isAlphanum = true) :
    ∀ c ∈ snakeFrom prev cs, isSnakeChar c = true := by
  induction cs generalizing prev with
  | nil => exact fun c hc => absurd hc List.not_mem_nil
  | cons d ds ih =>
    have hd := toLower_alphanum (h d List.mem_cons_self)
    have hds := ih (some d) fun c hc => h c (List.mem_cons_of_mem d hc)
    simp only [snakeFrom]
    split_ifs
    · rintro c (_ | ⟨_, _ | ⟨_, hc⟩⟩)
      · rfl
      · exact hd
      · exact hds c hc
    · rintro c (_ | ⟨_, hc⟩)
      · exact hd
      · exact hds c hc

/-- A lower_snake name comes back from its upper-case form. -/
theorem lower_upper_snake {name : String} (h : isMessageName name = true) :
    (toUpper (snake name)).toList.map Char.toLower = (snake name).toList := by
  have hchars : ∀ c ∈ (snake name).toList, isSnakeChar c = true := by
    unfold isMessageName at h
    rw [snake, String.toList_ofList]
    cases hcs : name.toList with
    | nil =>
      rw [hcs] at h
      cases h
    | cons d ds =>
      rw [hcs] at h
      simp only [Bool.and_eq_true, List.all_eq_true] at h
      refine snakeFrom_chars _ fun c hc => ?_
      rcases List.mem_cons.mp hc with rfl | hc
      · show (c.isUpper || c.isLower || c.isDigit) = true
        rw [h.1]
        rfl
      · exact h.2 c hc
  rw [toUpper, String.toList_ofList, List.map_map]
  exact (List.map_congr_left fun c hc => toLower_toUpper (hchars c hc)).trans (List.map_id _)

/-! ### The header -/

/-- The forms of the ordinary identifiers of a message. -/
def identForms : List (Bool × List Char) :=
  [(false, []), (true, "_put".toList), (true, "_get".toList), (false, "_size".toList),
    (false, "_encode".toList), (false, "_decode".toList)]

/-- The forms of the macros of a message, in lower case. -/
def macroForms : List (Bool × List Char) := [(false, "_type".toList), (false, "_fixed_size".toList)]

/-- The words of a header. -/
def Checked.words (s : Schema) (c : Checked) : List (List Char) :=
  (c.messages s).map fun m => (snake m.name).toList

theorem toList_messageIdents (m : Message) : (messageIdents s m).map String.toList =
    identForms.map fun x => formed s.package.toList x (snake m.name).toList := by
  simp only [messageIdents, identForms, List.map_cons, List.map_nil, formed, between_true, between_false, cName,
    cInternal, String.toList_append, List.append_nil]

theorem toList_cIdents (c : Checked) : (cIdents s c).map String.toList =
    (helperNames.map String.toList).map (formed s.package.toList (true, [])) ++
      (c.words s).flatMap fun w => identForms.map fun x => formed s.package.toList x w := by
  rw [cIdents, List.map_append, List.map_flatMap, Checked.words, List.flatMap_map]
  simp only [toList_messageIdents, List.map_map, Function.comp_def, formed, between_true, String.toList_append,
    List.append_nil]

theorem toList_cTags (c : Checked) : (cTags s c).map String.toList =
    (helperStructs.map String.toList).map (formed s.package.toList (true, [])) ++
      (c.words s).flatMap fun w => [(false, [])].map fun x => formed s.package.toList x w := by
  rw [cTags, List.map_append, Checked.words, List.flatMap_map]
  simp only [List.map_map, Function.comp_def, List.map_cons, List.map_nil, formed,
    between_true, between_false, cName, String.toList_append, List.append_nil]
  exact congrArg _ List.map_eq_flatMap

/-- The lower-case letters of a name. -/
def lowered (name : String) : List Char := name.toList.map Char.toLower

theorem lower_append (a b : String) : lowered (a ++ b) = lowered a ++ lowered b := by
  rw [lowered, String.toList_append, List.map_append]
  rfl

theorem lower_messageMacros {m : Message} (h : isMessageName m.name = true) :
    (messageMacros s m).map lowered =
      macroForms.map fun x => formed (lowered (toUpper s.package)) x (snake m.name).toList := by
  have hword : lowered (toUpper (snake m.name)) = (snake m.name).toList := lower_upper_snake h
  have hunderscore : lowered "_" = "_".toList := by decide
  have htype : lowered "_TYPE" = "_type".toList := by decide
  have hfixed : lowered "_FIXED_SIZE" = "_fixed_size".toList := by decide
  simp only [messageMacros, macroForms, List.map_cons, List.map_nil, formed, between_false, cUpper,
    lower_append, hword, hunderscore, htype, hfixed]

theorem lower_cMacros {c : Checked} (h : ∀ m ∈ c.messages s, isMessageName m.name = true) :
    (cMacros s c).map lowered =
      (helperMacros.map lowered).map (formed (lowered (toUpper s.package)) (true, [])) ++
        (c.words s).flatMap fun w => macroForms.map fun x => formed (lowered (toUpper s.package)) x w := by
  have hinside : lowered "_IPCGEN_" = "_ipcgen_".toList := by decide
  rw [cMacros, List.map_append, List.map_flatMap, Checked.words, List.flatMap_map,
    List.flatMap_congr fun m hm => lower_messageMacros (h m hm)]
  simp only [List.map_map, Function.comp_def, formed, between_true, lower_append, hinside, List.append_nil]

/-- What a schema that `Check` accepts brings for the words of its header. -/
theorem words_ok {c : Checked} (h : check s = .ok c) :
    (∀ m ∈ c.messages s, m ∈ s.messages ∧ isMessageName m.name = true) ∧ (c.words s).Nodup ∧
      ∀ w ∈ c.words s, ¬ "ipcgen".toList <+: w := by
  have hperm := messages_perm h
  obtain ⟨hproblems, -⟩ := check_eq_ok h
  obtain ⟨hnames, hnodup⟩ := names_ok (List.append_eq_nil_iff.mp hproblems).1
  have hnodup' := hnodup.map fun a b => String.toList_inj.mp
  rw [List.map_map] at hnodup'
  refine ⟨fun m hm => ⟨hperm.mem_iff.mp hm, (hnames m (hperm.mem_iff.mp hm)).1⟩,
    (hperm.map _).nodup_iff.mpr hnodup', fun w hw => ?_⟩
  obtain ⟨m, hm, rfl⟩ := List.mem_map.mp hw
  have hipcgen := (hnames m (hperm.mem_iff.mp hm)).2
  rwa [hasPrefix, ← Bool.not_eq_true, List.isPrefixOf_iff_prefix] at hipcgen

/-- Two endings of one kind: one is empty, or neither ends in the other. -/
theorem identForms_ends : ∀ x ∈ identForms, ∀ y ∈ identForms, x.1 = y.1 → x.2 ≠ y.2 →
    (x.2 = [] ∧ y.2 ∈ ["_size", "_encode", "_decode"].map String.toList) ∨
      (y.2 = [] ∧ x.2 ∈ ["_size", "_encode", "_decode"].map String.toList) ∨
      (¬ x.2 <:+ y.2 ∧ ¬ y.2 <:+ x.2) := by
  decide +kernel

theorem NoClash.words (h : NoClash s) {c : Checked} (hmem : ∀ m ∈ c.messages s, m ∈ s.messages)
    {a b x : List Char} (ha : a ∈ c.words s) (hb : b ∈ c.words s)
    (hx : x ∈ ["_size", "_encode", "_decode"].map String.toList) : a ≠ b ++ x := by
  obtain ⟨o, ho, rfl⟩ := List.mem_map.mp ha
  obtain ⟨m, hm, rfl⟩ := List.mem_map.mp hb
  obtain ⟨y, hy, rfl⟩ := List.mem_map.mp hx
  rw [← String.toList_append]
  exact fun heq => h m (hmem m hm) o (hmem o ho) y hy (String.toList_inj.mp heq)

/-- A message called like another with the ending of a function makes one name of two declarations. -/
theorem noClash_of_nodup {c : Checked} (h : check s = .ok c) (hnodup : (cIdents s c).Nodup) : NoClash s := by
  intro m hm o ho x hx hsnake
  have hperm := messages_perm h
  have hne : o ≠ m := by
    rintro rfl
    have hlen := congrArg (fun n => n.toList.length) hsnake
    simp only [String.toList_append, List.length_append] at hlen
    have hx0 : ∀ x ∈ ["_size", "_encode", "_decode"], 0 < x.toList.length := by decide +kernel
    have := hx0 x hx
    omega
  obtain ⟨-, hflat, -⟩ := List.nodup_append.mp hnodup
  have hdisjoint := (List.nodup_flatMap.mp hflat).2
  have hsymm : Std.Symm (Function.onFun List.Disjoint (messageIdents s)) :=
    ⟨fun _ _ hd _ ha hb => hd hb ha⟩
  have hom : List.Disjoint (messageIdents s o) (messageIdents s m) :=
    hdisjoint.forall (hperm.mem_iff.mpr ho) (hperm.mem_iff.mpr hm) hne
  refine hom (List.mem_cons_self (a := cName s o)) ?_
  rw [cName, hsnake, ← String.append_assoc]
  simp only [List.mem_cons, List.not_mem_nil, or_false] at hx
  rcases hx with rfl | rfl | rfl <;> simp [messageIdents, cName]

/-- **The names of a header are distinct**: for every schema that `Check` accepts, of any messages, the
    struct tags and the macros, and the ordinary identifiers exactly if no message is called like another
    with the ending of one of its functions. -/
theorem cNames_distinct {c : Checked} (h : check s = .ok c) :
    ((cIdents s c).Nodup ↔ NoClash s) ∧ (cTags s c).Nodup ∧ (cMacros s c).Nodup := by
  obtain ⟨hmessages, hwords, hipcgen⟩ := words_ok h
  refine ⟨⟨noClash_of_nodup h, fun hclash => .of_map String.toList ?_⟩, .of_map String.toList ?_,
    .of_map lowered ?_⟩
  · rw [toList_cIdents]
    refine nodup_names _ (by decide +kernel) (by decide +kernel) hwords (by decide +kernel)
      (by decide +kernel) hipcgen fun x hx y hy hsame hne a ha b hb => ?_
    rcases identForms_ends x hx y hy hsame hne with ⟨hx, hy⟩ | ⟨hy, hx⟩ | ⟨hxy, hyx⟩
    · rw [hx, List.append_nil]
      exact hclash.words (fun m hm => (hmessages m hm).1) ha hb hy
    · rw [hy, List.append_nil]
      exact (hclash.words (fun m hm => (hmessages m hm).1) hb ha hx).symm
    · exact append_ne hxy hyx
  · rw [toList_cTags]
    exact nodup_names _ (by decide +kernel) (by decide +kernel) hwords (by decide +kernel)
      (by decide +kernel) hipcgen (by simp)
  · rw [lower_cMacros fun m hm => (hmessages m hm).2]
    have hends : ∀ x ∈ macroForms, ∀ y ∈ macroForms, x.2 ≠ y.2 → ¬ x.2 <:+ y.2 ∧ ¬ y.2 <:+ x.2 := by
      decide +kernel
    refine nodup_names _ (by decide +kernel) (by decide +kernel) hwords (by decide +kernel)
      (by decide +kernel) hipcgen fun x hx y hy _ hne a _ b _ => ?_
    exact append_ne (hends x hx y hy hne).1 (hends x hx y hy hne).2

/-- Two messages, `Foo` and another one. -/
def pairSource (name : String) : List UInt8 :=
  ("package demo\n\nmessage Foo = 1 \x7b\n\ta u32\n\x7d\n\nmessage " ++ name ++
    " = 2 \x7b\n\tb u32\n\x7d\n").toUTF8.data.toList

def pairSchema (name : String) : Schema :=
  ⟨"demo.ipc", "demo", ⟨1, 9⟩,
    [⟨"Foo", 1, [⟨"a", .scalar .u32 ⟨4, 4⟩, ⟨4, 2⟩⟩], ⟨3, 9⟩, ⟨3, 15⟩⟩,
      ⟨name, 2, [⟨"b", .scalar .u32 ⟨8, 4⟩, ⟨8, 2⟩⟩], ⟨7, 9⟩, ⟨7, 12 + name.length⟩⟩]⟩

theorem cNames_distinct_sized : ∃ c, check (pairSchema "Sized") = .ok c ∧ (cIdents (pairSchema "Sized") c).Nodup ∧
    (cTags (pairSchema "Sized") c).Nodup ∧ (cMacros (pairSchema "Sized") c).Nodup := by
  have hcheck : (match check (pairSchema "Sized") with
      | .ok _ => true
      | .error _ => false) = true := by decide +kernel
  split at hcheck
  · next c hc =>
    obtain ⟨hidents, hrest⟩ := cNames_distinct hc
    exact ⟨c, hc, hidents.mpr (by decide +kernel), hrest⟩
  · cases hcheck

/-- The typedef of `FooSize` is the size function of `Foo`. -/
theorem cNames_clash : ∃ c, parse "demo.ipc" (pairSource "FooSize") = .ok (pairSchema "FooSize") ∧
    check (pairSchema "FooSize") = .ok c ∧ (cIdents (pairSchema "FooSize") c).count "demo_foo_size" = 2 := by
  have hparse : parse "demo.ipc" (pairSource "FooSize") = .ok (pairSchema "FooSize") := by decide +kernel
  have hcheck : (match check (pairSchema "FooSize") with
      | .ok c => decide ((cIdents (pairSchema "FooSize") c).count "demo_foo_size" = 2)
      | .error _ => false) = true := by decide +kernel
  split at hcheck
  · next c hc => exact ⟨c, hparse, hc, of_decide_eq_true hcheck⟩
  · cases hcheck

end GoIpc.Schema
