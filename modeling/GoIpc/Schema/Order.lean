import Mathlib.Data.List.Perm.Subperm
import GoIpc.Lib.Order
import GoIpc.Schema.Layout

namespace GoIpc.Schema

open GoIpc.Lib

/-!
# The order of the messages

`cycles` is a depth-first search with three colours: the messages on the stack are active, those in
`sorted` are done.

* `Searching` — its invariant: the stack is a path, every reported message contains itself, and as long
  as nothing is reported `sorted` puts every message after those it contains;
* `visit_searching` — a visit keeps it, and ends with the message done or with a report;
* `layout_placed` — `layout` along such an order finds every message it needs.
-/

variable {s : Schema}

/-- Message `i` contains message `j`, as a field or as the element of an array. -/
def Holds (s : Schema) : Nat → Nat → Prop := Edge (refs s)

/-! ### References -/

variable {i : Nat} {v : Visits}

theorem lookup_lt {name : String} (h : s.lookup name = some i) : i < s.messages.length :=
  (List.findIdx?_eq_some_iff_getElem.mp h).1

theorem lt_of_mem_refs {j : Nat} (h : j ∈ refs s i) : j < s.messages.length := by
  obtain ⟨f, -, hf⟩ := List.mem_filterMap.mp h
  unfold refOf at hf
  split at hf
  · exact lookup_lt hf
  · exact lookup_lt hf
  · cases hf

/-- A message that contains another is one of the schema. -/
theorem Holds.lt {j : Nat} (h : Holds s i j) : i < s.messages.length := by
  by_contra hi
  have hnil : refs s i = [] := by
    unfold refs
    rw [List.getElem?_eq_none (by omega)]
    rfl
  have hj : j ∈ refs s i := h
  rw [hnil] at hj
  cases hj

/-! ### The search -/

/-- What holds while the search runs. -/
structure Searching (s : Schema) (v : Visits) : Prop where
  nodup : (v.stack ++ v.sorted).Nodup
  bound : ∀ i ∈ v.stack ++ v.sorted, i < s.messages.length
  path : v.stack.IsChain (Holds s)
  cyclic : ∀ p ∈ v.problems, ∃ i path, p = ⟨posOf s i, .containsItself (nameOf s i) path⟩ ∧
    Relation.TransGen (Holds s) i i
  ordered : v.problems = [] → Topo (refs s) v.sorted

/-- The stack is no longer than the schema. -/
theorem Searching.length_le (h : Searching s v) : v.stack.length ≤ s.messages.length := by
  have hsub : v.stack ⊆ List.range s.messages.length := fun i hi =>
    List.mem_range.mpr (h.bound i (List.mem_append_left _ hi))
  have hle := ((List.nodup_append.mp h.nodup).1.subperm hsub).length_le
  rwa [List.length_range] at hle

theorem Searching.push (h : Searching s v) (hi : i < s.messages.length) (hstack : i ∉ v.stack)
    (hsorted : i ∉ v.sorted) (hfrom : ∀ j, v.stack.getLast? = some j → Holds s j i) :
    Searching s { v with stack := v.stack ++ [i] } where
  nodup := by
    have hmem : i ∉ v.stack ++ v.sorted := by simp [hstack, hsorted]
    have hperm : (v.stack ++ [i] ++ v.sorted).Perm (i :: (v.stack ++ v.sorted)) := by
      rw [List.append_assoc, List.singleton_append]
      exact List.perm_middle
    exact hperm.nodup_iff.mpr (List.nodup_cons.mpr ⟨hmem, h.nodup⟩)
  bound j hj := by
    simp only [List.append_assoc, List.mem_append, List.mem_singleton] at hj
    rcases hj with hj | rfl | hj
    · exact h.bound j (List.mem_append_left _ hj)
    · exact hi
    · exact h.bound j (List.mem_append_right _ hj)
  path := by
    refine List.IsChain.append h.path (List.isChain_singleton _) ?_
    intro j hj k hk
    cases hk
    exact hfrom j hj
  cyclic := h.cyclic
  ordered := h.ordered

/-- A message leaves the stack when the messages it contains are done. -/
theorem Searching.pop (h : Searching s v) {stack : List Nat} (hstack : v.stack = stack ++ [i])
    (hrefs : v.problems = [] → ∀ r ∈ refs s i, r ∈ v.sorted) :
    Searching s { v with stack := v.stack.dropLast, sorted := v.sorted ++ [i] } := by
  have hdrop : v.stack.dropLast = stack := by rw [hstack, List.dropLast_concat]
  have hperm : (stack ++ (v.sorted ++ [i])).Perm (v.stack ++ v.sorted) := by
    rw [hstack, List.append_assoc]
    exact List.Perm.append_left _ List.perm_append_comm
  refine ⟨?_, ?_, ?_, h.cyclic, fun hp => (h.ordered hp).snoc (hrefs hp)⟩
  · simp only [hdrop]
    exact hperm.nodup_iff.mpr h.nodup
  · simp only [hdrop]
    exact fun j hj => h.bound j (hperm.mem_iff.mp hj)
  · simp only [hdrop]
    have hpath := h.path
    rw [hstack] at hpath
    exact hpath.left_of_append

/-- A message on the stack that the last one contains is reported. -/
theorem Searching.report (h : Searching s v) (hi : i ∈ v.stack)
    (hfrom : ∀ j, v.stack.getLast? = some j → Holds s j i) (path : List String) :
    Searching s { v with
      problems := v.problems ++ [⟨posOf s i, .containsItself (nameOf s i) path⟩] } := by
  refine ⟨h.nodup, h.bound, h.path, fun p hp => ?_, fun hp => absurd hp (by simp)⟩
  rcases List.mem_append.mp hp with hp | hp
  · exact h.cyclic p hp
  · have hlast := List.getLast?_eq_some_getLast (List.ne_nil_of_mem hi)
    exact ⟨i, path, List.mem_singleton.mp hp, transGen_of_chain h.path hi hlast (hfrom _ hlast)⟩

/-- What a visit of message `i` does: the search goes on with the stack as before. -/
structure Visited (s : Schema) (v v' : Visits) : Prop where
  searching : Searching s v'
  stack : v'.stack = v.stack

/-- The loop over the messages that the last message on the stack contains; with an empty stack, any
    messages. -/
theorem foldl_visited {f : Visits → Nat → Visits} (h : Searching s v) {l : List Nat}
    (hl : ∀ i ∈ l, i < s.messages.length ∧ ∀ j, v.stack.getLast? = some j → Holds s j i)
    (hf : ∀ w i, Searching s w → w.stack = v.stack → i < s.messages.length →
      (∀ j, w.stack.getLast? = some j → Holds s j i) → Visited s w (f w i)) : Visited s v (l.foldl f v) := by
  suffices hall : ∀ w, Searching s w → w.stack = v.stack → Visited s v (l.foldl f w) from hall v h rfl
  induction l with
  | nil => exact fun w hw hstack => ⟨hw, hstack⟩
  | cons i l ih =>
    intro w hw hstack
    obtain ⟨hi, hfrom⟩ := hl i List.mem_cons_self
    obtain ⟨hw', hstack'⟩ := hf w i hw hstack hi (by rwa [hstack])
    exact ih (fun j hj => hl j (List.mem_cons_of_mem _ hj)) _ hw' (hstack'.trans hstack)

/-- A visit with fuel for every message that is not active. -/
theorem visit_visited {fuel : Nat} (h : Searching s v) (hi : i < s.messages.length)
    (hfrom : ∀ j, v.stack.getLast? = some j → Holds s j i)
    (hfuel : s.messages.length < fuel + v.stack.length) : Visited s v (visit s fuel i v) := by
  induction fuel generalizing i v with
  | zero =>
    have := h.length_le
    omega
  | succ fuel ih =>
    rw [visit]
    split_ifs with hactive hdone
    · exact ⟨h.report hactive hfrom _, rfl⟩
    · exact ⟨h, rfl⟩
    · have hpush := h.push hi hactive hdone hfrom
      have hloop : Visited s { v with stack := v.stack ++ [i] } _ :=
        foldl_visited (f := fun v r => visit s fuel r v) hpush (l := refs s i)
          (fun r hr => ⟨lt_of_mem_refs hr, fun j hj => by
            rw [List.getLast?_concat] at hj
            cases hj
            exact hr⟩)
          (fun w r hw hstack hr hlast => ih hw hr hlast (by
            rw [hstack, List.length_append, List.length_singleton]
            omega))
      refine ⟨hloop.searching.pop hloop.stack fun hp r hr => mem_sorted_of_foldl hr hp, ?_⟩
      show List.dropLast _ = _
      rw [hloop.stack, List.dropLast_concat]

theorem cycles_searching (s : Schema) : Visited s ⟨[], [], []⟩ (cycles s) := by
  have hinit : Searching s ⟨[], [], []⟩ :=
    ⟨List.nodup_nil, nofun, List.isChain_nil, nofun, fun _ => Topo.nil⟩
  refine foldl_visited (f := fun v i => visit s (s.messages.length + 1) i v) hinit ?_ ?_
  · exact fun i hi => ⟨List.mem_range.mp hi, nofun⟩
  · exact fun w i hw hstack hi hfrom => visit_visited hw hi hfrom (by omega)

/-! ### What the search finds -/

/-- A schema without a report has no message that contains itself. -/
theorem not_cyclic_of_cycles (h : (cycles s).problems = []) (i : Nat) :
    ¬ Relation.TransGen (Holds s) i i := by
  intro hcycle
  obtain ⟨j, hij, -⟩ := Relation.TransGen.head'_iff.mp hcycle
  exact ((cycles_searching s).searching.ordered h).not_transGen (mem_sorted_of_cycles h hij.lt) hcycle

theorem cycles_problems_iff (s : Schema) :
    (cycles s).problems = [] ↔ ∀ i, ¬ Relation.TransGen (Holds s) i i := by
  refine ⟨not_cyclic_of_cycles, fun h => List.eq_nil_iff_forall_not_mem.mpr fun p hp => ?_⟩
  obtain ⟨i, -, -, hcycle⟩ := (cycles_searching s).searching.cyclic p hp
  exact h i hcycle

theorem sorted_perm (h : (cycles s).problems = []) :
    (cycles s).sorted.Perm (List.range s.messages.length) := by
  have hv := cycles_searching s
  have hnodup := hv.searching.nodup
  have hbound := hv.searching.bound
  rw [hv.stack, List.nil_append] at hnodup hbound
  rw [List.perm_ext_iff_of_nodup hnodup List.nodup_range]
  exact fun i => ⟨fun hi => List.mem_range.mpr (hbound i hi),
    fun hi => mem_sorted_of_cycles h (List.mem_range.mp hi)⟩

/-! ### What `layout` reads -/

/-- The type of a fixed field has a size and an alignment. -/
def Ready (s : Schema) (t : Table) : Ty → Prop
  | .string _ | .bytes _ => True
  | .array _ elem _ => ∃ e, elemOf s t elem = some e
  | type => ∃ e, elemOf s t type = some e

theorem resolveRef_eq_nil {name : String} {pos : Pos} (h : resolveRef s name pos = []) :
    ∃ i, s.lookup name = some i := by
  unfold resolveRef at h
  split_ifs at h with hnone
  exact Option.isSome_iff_exists.mp (Option.isSome_iff_ne_none.mpr (by simpa using hnone))

theorem elemOf_ref {t : Table} {name : String} {pos : Pos} (hi : s.lookup name = some i) (ht : (t i).isSome) :
    ∃ e, elemOf s t (.ref name pos) = some e := by
  obtain ⟨laid, hlaid⟩ := Option.isSome_iff_exists.mp ht
  exact ⟨.ref laid, by simp [elemOf, hi, hlaid]⟩

/-- The fields of a message are ready when the messages it contains have a layout. -/
theorem ready_of_types (h : typeProblems s = []) {t : Table} {m : Message} (hm : s.messages[i]? = some m)
    (ht : ∀ r ∈ refs s i, (t r).isSome) {f : Field} (hf : f ∈ m.fields) : Ready s t f.type := by
  have hfield := List.flatMap_eq_nil_iff.mp (List.flatMap_eq_nil_iff.mp h m (List.mem_of_getElem? hm)) f hf
  have hresolve := (List.append_eq_nil_iff.mp hfield).1
  have hrefs : ∀ r, refOf s f.type = some r → (t r).isSome := by
    intro r hr
    refine ht r (List.mem_filterMap.mpr ⟨f, ?_, hr⟩)
    rwa [hm]
  cases htype : f.type with
  | string | bytes => trivial
  | scalar kind pos => exact ⟨_, rfl⟩
  | ref name pos =>
    rw [htype] at hresolve hrefs
    obtain ⟨r, hr⟩ := resolveRef_eq_nil hresolve
    exact elemOf_ref hr (hrefs r hr)
  | array len elem pos =>
    rw [htype] at hresolve hrefs
    have helem := (List.append_eq_nil_iff.mp hresolve).2
    cases elem with
    | scalar kind pos => exact ⟨_, rfl⟩
    | string | bytes | array => cases helem
    | ref name pos' =>
      obtain ⟨r, hr⟩ := resolveRef_eq_nil (List.append_eq_nil_iff.mp helem).1
      exact elemOf_ref hr (hrefs r hr)

/-- With all types ready the loop over the fields stops only at the bound. -/
theorem layoutFields_error {t : Table} {m : Message} {c : Cursor} {fs : List Field}
    (hready : ∀ f ∈ fs, Ready s t f.type) {p : Problem} (h : layoutFields s t m c fs = .error p) :
    p.msg = .tooLarge m.name maxFixedSize := by
  induction fs generalizing c with
  | nil => cases h
  | cons f fs ih =>
    have hf := hready f List.mem_cons_self
    replace ih := fun c => @ih c (fun g hg => hready g (List.mem_cons_of_mem _ hg))
    simp only [layoutFields] at h
    split at h
    -- strings and bytes cannot fail, the other fields only at the limit
    · rcases except_bind_eq_error.mp h with hrest | ⟨_, _, heq⟩
      · exact ih _ hrest
      · cases heq
    · rcases except_bind_eq_error.mp h with hrest | ⟨_, _, heq⟩
      · exact ih _ hrest
      · cases heq
    · next hty =>
      rw [hty] at hf
      obtain ⟨e, he⟩ := hf
      simp only [he] at h
      split at h
      · cases h
        rfl
      · rcases except_bind_eq_error.mp h with hrest | ⟨_, _, heq⟩
        · exact ih _ hrest
        · cases heq
    · next type hstring hbytes harray =>
      have he : ∃ e, elemOf s t f.type = some e := by
        cases hty : f.type with
        | string pos => exact absurd hty (hstring pos)
        | bytes pos => exact absurd hty (hbytes pos)
        | array len elem pos => exact absurd hty (harray len elem pos)
        | scalar | ref => rwa [hty] at hf
      obtain ⟨e, he⟩ := he
      simp only [he] at h
      split at h
      · cases h
        rfl
      · rcases except_bind_eq_error.mp h with hrest | ⟨_, _, heq⟩
        · exact ih _ hrest
        · cases heq

/-- The run over the messages in order: those before have a layout. -/
theorem layout_error (htypes : typeProblems s = []) {d is : List Nat} {t : Table}
    (htopo : Topo (refs s) (d ++ is)) (hbound : ∀ i ∈ is, i < s.messages.length)
    (ht : ∀ i ∈ d, (t i).isSome) {p : Problem} (h : layout s t is = .error p) :
    ∃ m ∈ s.messages, p.msg = .tooLarge m.name maxFixedSize := by
  induction is generalizing d t with
  | nil => cases h
  | cons i is ih =>
    have hi := hbound i List.mem_cons_self
    have hm := List.getElem?_eq_getElem hi
    simp only [layout, hm] at h
    rcases except_bind_eq_error.mp h with hmessage | ⟨laid, -, hrest⟩
    · rcases except_bind_eq_error.mp hmessage with hfields | ⟨_, _, heq⟩
      · have hrefs : ∀ r ∈ refs s i, (t r).isSome := fun r hr => ht r (htopo d i is rfl r hr)
        exact ⟨_, List.getElem_mem hi,
          layoutFields_error (fun f hf => ready_of_types htypes hm hrefs hf) hfields⟩
      · cases heq
    · refine ih (d := d ++ [i]) (by rwa [List.append_assoc, List.singleton_append])
        (fun j hj => hbound j (List.mem_cons_of_mem _ hj)) (fun j hj => ?_) hrest
      split_ifs with hji
      · rfl
      · rcases List.mem_append.mp hj with hj | hj
        · exact ht j hj
        · exact absurd (List.mem_singleton.mp hj) hji

theorem cycles_layout_error (htypes : typeProblems s = []) (hcycles : (cycles s).problems = [])
    {p : Problem} (h : layout s (fun _ => none) (cycles s).sorted = .error p) :
    ∃ m ∈ s.messages, p.msg = .tooLarge m.name maxFixedSize :=
  layout_error (d := []) htypes ((cycles_searching s).searching.ordered hcycles)
    (fun _ hi => List.mem_range.mp ((sorted_perm hcycles).mem_iff.mp hi)) nofun h

/-- A message that contains itself is reported, and nothing else is reported as one. -/
theorem check_reports_cycle_iff (hnames : nameProblems s = []) (htypes : typeProblems s = []) :
    (∃ ps, check s = .error ps ∧ ∃ p ∈ ps, ∃ name path, p.msg = .containsItself name path) ↔
      ∃ i, Relation.TransGen (Holds s) i i := by
  have hproblems : ¬ nameProblems s ++ typeProblems s ≠ [] := by simp [hnames, htypes]
  by_cases hcycles : (cycles s).problems = []
  · have hacyclic := not_cyclic_of_cycles hcycles
    refine ⟨?_, fun ⟨i, hi⟩ => absurd hi (hacyclic i)⟩
    rintro ⟨ps, hcheck, p, hp, name, path, hmsg⟩
    simp only [check, if_neg hproblems, hcycles, ne_eq, not_true_eq_false, if_false] at hcheck
    split at hcheck <;> cases hcheck
    next q hq =>
      cases List.mem_singleton.mp hp
      obtain ⟨m, -, hlarge⟩ := cycles_layout_error htypes hcycles hq
      rw [hmsg] at hlarge
      cases hlarge
  · obtain ⟨p, hp⟩ := List.exists_mem_of_ne_nil _ hcycles
    obtain ⟨i, path, rfl, hcycle⟩ := (cycles_searching s).searching.cyclic p hp
    have hcheck : check s = .error ((cycles s).problems.mergeSort Problem.le) := by
      simp only [check, if_neg hproblems, ne_eq, hcycles, not_false_eq_true, if_true]
    exact ⟨fun _ => ⟨i, hcycle⟩, fun _ => ⟨_, hcheck, _, List.mem_mergeSort.mpr hp, _, _, rfl⟩⟩

/-- **The order is exact**: for a schema with valid names and types the search comes to its end, `check`
    reports a message that contains itself exactly when there is one, and otherwise `Sorted` has every
    message once and after those it contains, so that `layout` finds all sizes it needs. -/
theorem check_order (s : Schema) (hnames : nameProblems s = []) (htypes : typeProblems s = []) :
    (∀ p ∈ (cycles s).problems, p.msg ≠ .stuck) ∧
    ((∃ ps, check s = .error ps ∧ ∃ p ∈ ps, ∃ name path, p.msg = .containsItself name path) ↔
      ∃ i, Relation.TransGen (Holds s) i i) ∧
    ((∀ i, ¬ Relation.TransGen (Holds s) i i) →
      (cycles s).sorted.Perm (List.range s.messages.length) ∧
      (∀ before i after, (cycles s).sorted = before ++ i :: after → ∀ j, Holds s i j → j ∈ before) ∧
      (∀ p, layout s (fun _ => none) (cycles s).sorted = .error p → p.msg ≠ .stuck) ∧
      ∀ c, check s = .ok c → c.sorted = (cycles s).sorted) := by
  refine ⟨fun p hp => ?_, check_reports_cycle_iff hnames htypes, fun hacyclic => ?_⟩
  · obtain ⟨i, path, rfl, -⟩ := (cycles_searching s).searching.cyclic p hp
    exact nofun
  · have hcycles := (cycles_problems_iff s).mpr hacyclic
    refine ⟨sorted_perm hcycles, (cycles_searching s).searching.ordered hcycles, fun p hp => ?_,
      fun c hc => (check_eq_ok hc).2.2.1⟩
    obtain ⟨m, -, hlarge⟩ := cycles_layout_error htypes hcycles hp
    rw [hlarge]
    exact nofun

/-- Two messages that contain each other, one through an array. -/
def mutual2 : Schema :=
  ⟨"mutual.ipc", "mutual", ⟨1, 9⟩,
    [⟨"Left", 1, [⟨"r", .ref "Right" ⟨3, 4⟩, ⟨3, 2⟩⟩], ⟨2, 9⟩, ⟨2, 17⟩⟩,
      ⟨"Right", 2, [⟨"l", .array 2 (.ref "Left" ⟨6, 6⟩) ⟨6, 4⟩, ⟨6, 2⟩⟩], ⟨5, 9⟩, ⟨5, 17⟩⟩]⟩

theorem check_order_mutual2 : nameProblems mutual2 = [] ∧ typeProblems mutual2 = [] ∧
    ∃ ps, check mutual2 = .error ps ∧ ∃ p ∈ ps, ∃ name path, p.msg = .containsItself name path := by
  have hnames : nameProblems mutual2 = [] := by decide +kernel
  have htypes : typeProblems mutual2 = [] := by decide +kernel
  have hthere : Holds mutual2 0 1 := by unfold Holds Edge; decide +kernel
  have hback : Holds mutual2 1 0 := by unfold Holds Edge; decide +kernel
  exact ⟨hnames, htypes, (check_order mutual2 hnames htypes).2.1.mpr ⟨0, .tail (.single hthere) hback⟩⟩

end GoIpc.Schema
