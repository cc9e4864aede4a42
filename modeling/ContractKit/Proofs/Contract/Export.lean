import ContractKit.Contract.Export
import Mathlib.Data.List.Induction
import Mathlib.Data.List.Nodup

/-!
# `Proofs/Contract/Export.lean`: when exports make up a table

The exports of a module are put into groups of one name, and every group of more than one is reported.
There is none to report exactly if the names differ from each other (`ExportTable.ofExports_eq_ok`), and
that stays so when exports are left out.

Groups are how the report is found, but not what it says: `ExportTable.Reports` says of every place at
which an export stands whether it is reported, and in which order (`ExportTable.reports_of_ofExports`).
-/

set_option autoImplicit false

namespace ContractKit.ExportTable

theorem length_named (exports : List Export) (name : String) :
    (exports.filter fun e => e.name == name).length = (exports.map (·.name)).count name := by
  rw [← List.countP_eq_length_filter, List.count, List.countP_map]
  rfl

theorem clashes_eq_nil {exports : List Export} :
    clashes exports = [] ↔ (exports.map (·.name)).Nodup := by
  simp only [clashes, groups, List.flatMap_eq_nil_iff, List.forall_mem_map, List.mem_eraseDups,
    List.nodup_iff_count_le_one, ← length_named]
  constructor
  · intro h name
    by_contra hmore
    -- a group of more than one is that of a name that is there, and is reported
    obtain ⟨e, hgroup⟩ := List.exists_mem_of_length_pos
      (l := exports.filter fun e => e.name == name) (by omega)
    obtain ⟨he, hname⟩ := List.mem_filter.mp hgroup
    obtain rfl := beq_iff_eq.mp hname
    have hnone := h e he
    rw [if_pos (by omega), List.map_eq_nil_iff] at hnone
    rw [hnone] at hgroup
    cases hgroup
  · intro h e he
    have hone := h e.name
    rw [if_neg (by omega)]

/-- **Exports make up a table exactly if no two of them have one name.** The table is then the list as
it was collected, in the same order. -/
theorem ofExports_eq_ok {exports : List Export} {table : ExportTable} :
    ofExports exports = .ok table ↔ (exports.map (·.name)).Nodup ∧ table = ⟨exports⟩ := by
  rw [← clashes_eq_nil]
  unfold ofExports
  cases clashes exports with
  | nil => simp [Report.ofList?, eq_comm]
  | cons d ds => simp [Report.ofList?]

/-- Exports can be left out of a table. -/
theorem ofExports_filter {exports : List Export} {table : ExportTable} (p : Export → Bool)
    (h : ofExports exports = .ok table) :
    ofExports (exports.filter p) = .ok ⟨table.exports.filter p⟩ := by
  obtain ⟨hnames, rfl⟩ := ofExports_eq_ok.mp h
  exact ofExports_eq_ok.mpr ⟨hnames.sublist (List.filter_sublist.map _), rfl⟩

/-! ## What is reported -/

/-- The place at which a name occurs first. -/
def firstPlace (exports : List Export) (name : String) : Nat := (exports.map (·.name)).idxOf name

/-- The export stands at the place, and another place has one of the same name. -/
def ClashesAt (exports : List Export) (e : Export) (place : Nat) : Prop :=
  exports[place]? = some e ∧
    ∃ other f, other ≠ place ∧ exports[other]? = some f ∧ f.name = e.name

/-- The problems are those with the exports whose names clash: one for each place at which such an
export stands, name after name as they first occur, and those of one name as they stand. -/
def Reports (exports : List Export) (problems : List Diagnostic) : Prop :=
  ∃ found : List (Export × Nat), problems = found.map (fun o => duplicate o.1) ∧
    (∀ e place, (e, place) ∈ found ↔ ClashesAt exports e place) ∧
    found.Pairwise fun o p =>
      firstPlace exports o.1.name < firstPlace exports p.1.name ∨
        o.1.name = p.1.name ∧ o.2 < p.2

/-- The exports of a name, each with its place. -/
def occurrences (exports : List Export) (name : String) : List (Export × Nat) :=
  exports.zipIdx.filter fun o => o.1.name == name

variable {exports : List Export} {name : String} {e : Export} {place : Nat}

theorem mem_occurrences :
    (e, place) ∈ occurrences exports name ↔ exports[place]? = some e ∧ e.name = name := by
  rw [occurrences, List.mem_filter, List.mem_zipIdx_iff_getElem?, beq_iff_eq]

theorem map_occurrences (exports : List Export) (name : String) :
    (occurrences exports name).map (·.1) = exports.filter fun e => e.name == name := by
  have hplaces : exports.filter (fun e => e.name == name) =
      (exports.zipIdx.map (·.1)).filter fun e => e.name == name := by
    rw [List.zipIdx_map_fst]
  rw [hplaces, List.filter_map]
  rfl

/-- The exports of a name stand one behind the other. -/
theorem pairwise_occurrences (exports : List Export) (name : String) :
    (occurrences exports name).Pairwise fun o p => o.2 < p.2 := by
  have hplaces : exports.zipIdx.Pairwise fun o p => o.2 < p.2 := by
    rw [← List.pairwise_map (f := fun o : Export × Nat => o.2) (R := fun i j => i < j),
      List.zipIdx_map_snd]
    exact List.pairwise_lt_range'
  exact hplaces.filter _

/-- A name occurs more than once if it does so at another place than a given one. -/
theorem one_lt_occurrences (he : exports[place]? = some e) :
    1 < (occurrences exports e.name).length ↔ ClashesAt exports e place := by
  have hmem : (e, place) ∈ occurrences exports e.name := mem_occurrences.mpr ⟨he, rfl⟩
  have hnodup : (occurrences exports e.name).Nodup := by
    refine (pairwise_occurrences exports e.name).imp ?_
    rintro o p h rfl
    exact Nat.lt_irrefl _ h
  -- the export occurs itself, once, so another occurrence is another place
  constructor
  · intro hlen
    have hne : occurrences exports e.name ≠ [(e, place)] := by
      intro h
      rw [h] at hlen
      exact Nat.lt_irrefl _ hlen
    obtain hnil | ⟨⟨f, other⟩, hf, hother⟩ := (hnodup.ne_singleton_iff _).mp hne
    · rw [hnil] at hmem
      cases hmem
    · obtain ⟨hplace, hname⟩ := mem_occurrences.mp hf
      refine ⟨he, other, f, ?_, hplace, hname⟩
      rintro rfl
      exact hother (by rw [Option.some.inj (hplace.symm.trans he)])
  · rintro ⟨-, other, f, hother, hplace, hname⟩
    have hf : (f, other) ∈ occurrences exports e.name := mem_occurrences.mpr ⟨hplace, hname⟩
    match hos : occurrences exports e.name with
    | [] =>
      rw [hos] at hmem
      cases hmem
    | [o] =>
      rw [hos, List.mem_singleton] at hmem hf
      rw [← hmem] at hf
      exact absurd (congrArg Prod.snd hf) hother
    | o :: p :: rest => exact Nat.lt_of_lt_of_le (by decide) (Nat.le_add_left 2 rest.length)

/-- Names without repetitions stand in the order in which they occur first. -/
theorem pairwise_idxOf_eraseDups (names : List String) :
    names.eraseDups.Pairwise fun a b => names.idxOf a < names.idxOf b := by
  induction names using List.reverseRecOn with
  | nil => exact .nil
  | append_singleton names name ih =>
    have hidx : ∀ a ∈ names.eraseDups, (names ++ [name]).idxOf a = names.idxOf a := by
      intro a ha
      exact List.idxOf_append_of_mem (List.mem_eraseDups.mp ha)
    have hbefore : names.eraseDups.Pairwise fun a b =>
        (names ++ [name]).idxOf a < (names ++ [name]).idxOf b := by
      refine ih.imp_of_mem ?_
      intro a b ha hb h
      rw [hidx a ha, hidx b hb]
      exact h
    rw [List.eraseDups_append, List.pairwise_append]
    by_cases hmem : name ∈ names
    · have hnone : [name].removeAll names = [] := by simp [List.removeAll, hmem]
      rw [hnone]
      exact ⟨hbefore, .nil, fun a ha b hb => nomatch hb⟩
    · have hnew : [name].removeAll names = [name] := by simp [List.removeAll, hmem]
      rw [hnew]
      refine ⟨hbefore, List.pairwise_singleton _ _, ?_⟩
      intro a ha b hb
      obtain rfl := List.mem_singleton.mp hb
      -- a new name occurs first at the end
      rw [hidx a ha, List.idxOf_append_of_notMem hmem]
      have hlt := List.idxOf_lt_length_iff.mpr (List.mem_eraseDups.mp ha)
      omega

/-- The places at which exports stand whose names clash, name after name. -/
def clashing (exports : List Export) : List (Export × Nat) :=
  ((exports.map (·.name)).eraseDups).flatMap fun name =>
    if 1 < (occurrences exports name).length then occurrences exports name else []

theorem mem_clashing : (e, place) ∈ clashing exports ↔ ClashesAt exports e place := by
  rw [clashing, List.mem_flatMap]
  constructor
  · rintro ⟨name, -, h⟩
    split at h
    · next hmore =>
      obtain ⟨he, rfl⟩ := mem_occurrences.mp h
      exact (one_lt_occurrences he).mp hmore
    · cases h
  · intro h
    have he := h.1
    refine ⟨e.name, List.mem_eraseDups.mpr (List.mem_map_of_mem (List.mem_of_getElem? he)), ?_⟩
    rw [if_pos ((one_lt_occurrences he).mpr h)]
    exact mem_occurrences.mpr ⟨he, rfl⟩

theorem pairwise_clashing (exports : List Export) : (clashing exports).Pairwise fun o p =>
    firstPlace exports o.1.name < firstPlace exports p.1.name ∨
      o.1.name = p.1.name ∧ o.2 < p.2 := by
  have hname : ∀ {name : String} {o : Export × Nat},
      (o ∈ if 1 < (occurrences exports name).length then occurrences exports name else []) →
        o.1.name = name := by
    intro name o ho
    split at ho
    · exact (mem_occurrences.mp ho).2
    · cases ho
  rw [clashing, List.pairwise_flatMap]
  constructor
  · intro name _
    split
    · refine (pairwise_occurrences exports name).imp_of_mem ?_
      intro o p ho hp h
      exact .inr ⟨(mem_occurrences.mp ho).2.trans (mem_occurrences.mp hp).2.symm, h⟩
    · exact .nil
  · refine (pairwise_idxOf_eraseDups _).imp ?_
    intro a b h o ho p hp
    left
    rw [hname ho, hname hp]
    exact h

theorem clashes_eq_map (exports : List Export) :
    clashes exports = (clashing exports).map fun o => duplicate o.1 := by
  rw [clashes, groups, clashing, List.flatMap_map, List.map_flatMap]
  refine List.flatMap_congr fun name _ => ?_
  rw [← map_occurrences, List.length_map]
  split
  · rw [List.map_map]
    rfl
  · rfl

/-- There is a table if no export clashes with another one. -/
theorem exists_ofExports_iff :
    (∃ table, ofExports exports = .ok table) ↔ ∀ e place, ¬ ClashesAt exports e place := by
  have hnone : (∃ table, ofExports exports = .ok table) ↔ clashes exports = [] := by
    constructor
    · rintro ⟨table, h⟩
      exact clashes_eq_nil.mpr (ofExports_eq_ok.mp h).1
    · intro h
      exact ⟨_, ofExports_eq_ok.mpr ⟨clashes_eq_nil.mp h, rfl⟩⟩
  rw [hnone, clashes_eq_map, List.map_eq_nil_iff, List.eq_nil_iff_forall_not_mem]
  constructor
  · intro h e place hclash
    exact h (e, place) (mem_clashing.mpr hclash)
  · rintro h ⟨e, place⟩ hmem
    exact h e place (mem_clashing.mp hmem)

/-- **The report about exports names every clash**, in the order in which the names first occur. -/
theorem reports_of_ofExports {report : Report} (h : ofExports exports = .error report) :
    Reports exports report.toList := by
  refine ⟨clashing exports, ?_, fun _ _ => mem_clashing, pairwise_clashing exports⟩
  rw [← clashes_eq_map]
  unfold ofExports at h
  cases hclashes : clashes exports with
  | nil =>
    rw [hclashes] at h
    cases h
  | cons d ds =>
    rw [hclashes] at h
    cases h
    rfl

/-- In a table every export is found under its name, and nothing else is. -/
theorem find?_eq_some_iff {table : ExportTable} (h : ofExports exports = .ok table) :
    table.find? name = some e ↔ e ∈ exports ∧ e.name = name := by
  obtain ⟨hnames, rfl⟩ := ofExports_eq_ok.mp h
  constructor
  · intro hfind
    exact ⟨List.mem_of_find?_eq_some hfind, by simpa using List.find?_some hfind⟩
  · rintro ⟨he, rfl⟩
    obtain ⟨f, hf⟩ := Option.isSome_iff_exists.mp
      (List.find?_isSome (p := fun f : Export => f.name == e.name).mpr ⟨e, he, beq_self_eq_true _⟩)
    have hname : f.name = e.name := by simpa using List.find?_some hf
    rw [List.inj_on_of_nodup_map hnames he (List.mem_of_find?_eq_some hf) hname.symm]
    exact hname ▸ hf

end ContractKit.ExportTable
