import ContractKit.Proofs.Fault.Gather
import ContractKit.Proofs.Settings.FileTree
import ContractKit.Settings.Load
import Mathlib.Data.List.Perm.Subperm

/-!
# `Proofs/Settings/Chain.lean`: files that extend each other

Files are followed one after the other until one names no other, or something is wrong with one, or as
many were followed as can be (`Settings.extended_outcome`). How many that are is not the library's to
say, so everything is said for every limit. Which file is followed next is a matter of where
the last one is and of what it holds, not of the path by which it was found. So files that end in a result
are all different, and a chain that comes back to a file gives none (`Settings.not_ok_of_return`).

Only a file that names itself is recognized as such a return. Any other one is followed to the limit,
whatever it is, or until the path has grown too long (`Settings.extended_of_tree`).
-/

set_option autoImplicit false

namespace ContractKit.Settings

variable {read : ReadFile} {path base target : String} {chain : List String}
  {outcome : Except Fault (List (String × Document))}

/-- The place that a path leads to, by name. -/
def place (path : String) : Path := (Path.ofText path).destination

/-- The file of a path names another one that it extends. -/
def Extends (read : ReadFile) (path base : String) : Prop :=
  ∃ parts, partsOf read path = .ok parts ∧ base? path parts = .ok (some base)

/-- Files that extend each other lead from one path to another. The chain holds the paths that were
followed, without the one that was reached, and nothing is said of what merging them gives. -/
inductive Leads (read : ReadFile) : String → List String → String → Prop
  | here (path : String) : Leads read path [] path
  | onto {path base target : String} {chain : List String} (h : Extends read path base)
      (hrest : Leads read base chain target) : Leads read path (path :: chain) target

/-- The files that are followed from a path on up to an end, and the outcome of laying them over each
other. -/
inductive Follows (read : ReadFile) :
    String → List String → Except Fault (List (String × Document)) → Prop
  | top {path : String} {parts : List (String × Document)} (hparts : partsOf read path = .ok parts)
      (hbase : base? path parts = .ok none) : Follows read path [path] (.ok (ownParts parts))
  | refused {path : String} {f : Fault} (h : (partsOf read path >>= base? path) = .error f) :
      Follows read path [path] (.error f)
  | onto {path base : String} {parts : List (String × Document)} {chain : List String}
      {outcome : Except Fault (List (String × Document))} (hparts : partsOf read path = .ok parts)
      (hbase : base? path parts = .ok (some base)) (hrest : Follows read base chain outcome) :
      Follows read path (path :: chain)
        (outcome.map fun below => Document.partsOver below (ownParts parts))

/-! ## Ends -/

/-- What is wrong with a file is an issue with a value. -/
theorem kind_of_partsOf {f : Fault} (h : partsOf read path = .error f) : f.kind = .value := by
  unfold partsOf at h
  split at h
  · cases h
    rfl
  · cases h
  · cases h
  · cases h
    rfl

theorem kind_of_base? {parts : List (String × Document)} {f : Fault}
    (h : base? path parts = .error f) : f.kind = .value := by
  unfold base? at h
  split at h
  · cases h
  · split at h
    · cases h
    · dsimp only at h
      split at h
      · cases h
        rfl
      · split at h
        · cases h
          rfl
        · cases h

/-- **What keeps files from a result is an issue with a value.** -/
theorem Follows.kind_of_error {f : Fault} (h : Follows read path chain (.error f)) :
    f.kind = .value := by
  generalize houtcome : (Except.error f : Except Fault (List (String × Document))) = outcome at h
  induction h with
  | top => cases houtcome
  | refused h =>
    cases houtcome
    cases hparts : partsOf read _ with
    | error g =>
      rw [hparts] at h
      cases h
      exact kind_of_partsOf hparts
    | ok parts =>
      rw [hparts] at h
      exact kind_of_base? h
  | @onto path base parts chain outcome _ _ _ ih =>
    cases outcome with
    | ok below => cases houtcome
    | error g =>
      cases houtcome
      exact ih rfl

/-- One file is laid over what is found from the next one on. -/
theorem extended_succ (read : ReadFile) (limit : Nat) (path : String) :
    (∃ parts base, partsOf read path = .ok parts ∧ base? path parts = .ok (some base) ∧
        extended read (limit + 1) path =
          (extended read limit base).map fun below =>
            Document.partsOver below (ownParts parts)) ∨
      Follows read path [path] (extended read (limit + 1) path) := by
  rw [extended]
  -- the file is followed by itself unless it names a base that can be followed
  cases hparts : partsOf read path with
  | error f =>
    refine .inr (.refused ?_)
    rw [hparts]
    rfl
  | ok parts =>
    cases hbase : base? path parts with
    | error f =>
      have hrefused : Follows read path [path] (.error f) := by
        refine .refused ?_
        rw [hparts]
        exact hbase
      right
      simpa [bind, Except.bind, hbase] using hrefused
    | ok found =>
      cases found with
      | none =>
        right
        simpa [bind, Except.bind, hbase, pure, Except.pure] using Follows.top hparts hbase
      | some base =>
        refine .inl ⟨parts, base, rfl, hbase, ?_⟩
        simp only [bind, Except.bind, hbase]
        cases extended read limit base with
        | error f => rfl
        | ok below => rfl

/-- **Files are followed to an end, or as far as files are followed.** By induction over the limit,
along the files. Either way the chain is that of the files that were followed. -/
theorem extended_outcome (read : ReadFile) (limit : Nat) (path : String) :
    (∃ chain, Follows read path chain (extended read limit path) ∧ chain.length ≤ limit) ∨
      ∃ chain base, Leads read path chain base ∧ chain.length = limit ∧
        extended read limit path = fail .tooManyFiles := by
  induction limit generalizing path with
  | zero => exact .inr ⟨[], path, .here path, rfl, rfl⟩
  | succ limit ih =>
    rcases extended_succ read limit path with ⟨parts, base, hparts, hbase, hmore⟩ | hend
    · rw [hmore]
      rcases ih base with ⟨chain, hfollows, hlen⟩ | ⟨chain, last, hleads, hlen, hmany⟩
      · exact .inl ⟨path :: chain, .onto hparts hbase hfollows, Nat.succ_le_succ hlen⟩
      · refine .inr ⟨path :: chain, last, .onto ⟨parts, hparts, hbase⟩ hleads, ?_, ?_⟩
        · rw [List.length_cons, hlen]
        · rw [hmany]
          rfl
    · exact .inl ⟨[path], hend, Nat.le_add_left 1 limit⟩

/-! ## Going on from a file -/

theorem Extends.unique {other : String} (h : Extends read path base) (h' : Extends read path other) :
    base = other := by
  obtain ⟨parts, hparts, hbase⟩ := h
  obtain ⟨parts', hparts', hbase'⟩ := h'
  obtain rfl := Except.ok.inj (hparts.symm.trans hparts')
  exact Option.some.inj (Except.ok.inj (hbase.symm.trans hbase'))

/-- Files are followed from each of the files on the way in the same manner. -/
theorem Follows.of_leads {before : List String} (hleads : Leads read path before target)
    (h : Follows read path chain outcome) :
    ∃ rest outcome', chain = before ++ rest ∧ Follows read target rest outcome' ∧
      (∀ parts, outcome = .ok parts → ∃ parts', outcome' = .ok parts') := by
  induction hleads generalizing chain outcome with
  | here path => exact ⟨chain, outcome, rfl, h, fun parts hok => ⟨parts, hok⟩⟩
  | @onto path base target before hextends _ ih =>
    obtain ⟨parts, hparts, hbase⟩ := id hextends
    cases h with
    | top hparts' hbase' =>
      obtain rfl := Except.ok.inj (hparts.symm.trans hparts')
      rw [hbase] at hbase'
      cases hbase'
    | refused h =>
      rw [hparts] at h
      rw [show (Except.ok parts >>= base? path) = base? path parts from rfl, hbase] at h
      cases h
    | @onto _ base' parts' chain outcome hparts' hbase' hrest =>
      obtain rfl := hextends.unique ⟨parts', hparts', hbase'⟩
      obtain ⟨rest, outcome', rfl, hfollows, hok⟩ := ih hrest
      refine ⟨rest, outcome', rfl, hfollows, ?_⟩
      intro merged hmerged
      cases outcome with
      | error f => cases hmerged
      | ok below => exact hok below rfl

/-- A file that is followed is led to. -/
theorem Follows.exists_leads (h : Follows read path chain outcome) :
    ∀ q ∈ chain, ∃ before, Leads read path before q := by
  induction h with
  | top =>
    intro q hq
    obtain rfl := List.mem_singleton.mp hq
    exact ⟨[], .here _⟩
  | refused =>
    intro q hq
    obtain rfl := List.mem_singleton.mp hq
    exact ⟨[], .here _⟩
  | onto hparts hbase _ ih =>
    intro q hq
    rcases List.mem_cons.mp hq with rfl | hq
    · exact ⟨[], .here _⟩
    · obtain ⟨before, hleads⟩ := ih q hq
      exact ⟨_, .onto ⟨_, hparts, hbase⟩ hleads⟩

/-- **Files that lead back to a path are followed to no end.** -/
theorem not_follows_of_cycle {cycle : List String} (hcycle : Leads read path cycle path)
    (hne : cycle ≠ []) : ¬ Follows read path chain outcome := by
  intro h
  -- what is left behind the cycle is a shorter chain from the same path
  induction hlen : chain.length using Nat.strongRecOn generalizing chain outcome with
  | ind n ih =>
    obtain ⟨rest, outcome', rfl, hrest, -⟩ := h.of_leads hcycle
    have hpos := List.length_pos_of_ne_nil hne
    rw [List.length_append] at hlen
    exact ih rest.length (by omega) hrest rfl

/-- **A path that is come back to is followed as far as files can be followed.** -/
theorem extended_of_cycle {before cycle : List String} (hbefore : Leads read path before target)
    (hcycle : Leads read target cycle target) (hne : cycle ≠ []) (limit : Nat) :
    extended read limit path = fail .tooManyFiles := by
  rcases extended_outcome read limit path with ⟨chain, hfollows, -⟩ | ⟨-, -, -, -, hmany⟩
  · obtain ⟨rest, outcome', -, hrest, -⟩ := hfollows.of_leads hbefore
    exact absurd hrest (not_follows_of_cycle hcycle hne)
  · exact hmany

/-! ## Places -/

/-- What a file names is read beside it, and leads to another place. -/
theorem base?_eq_some {parts : List (String × Document)} :
    base? path parts = .ok (some base) ↔
      ∃ named, parts.lookup extendsKey = some named ∧ named.isTruthy = true ∧
        base = ((Path.ofText path).parent.join (Path.ofText named.asText)).text ∧
        Char.ofNat 0 ∉ base.toList ∧
        ((Path.ofText path).parent.join (Path.ofText named.asText)).destination ≠ place path := by
  unfold base?
  cases hnamed : parts.lookup extendsKey with
  | none => simp
  | some named =>
    cases htruthy : named.isTruthy with
    | false => simp [htruthy]
    | true =>
      have hzero : ∀ text : String,
          text.contains (Char.ofNat 0) = true ↔ Char.ofNat 0 ∈ text.toList := by
        intro text
        rw [String.contains_char_eq, decide_eq_true_iff]
      simp only [htruthy, Bool.not_true, Bool.false_eq_true, if_false, hzero, fail, place]
      constructor
      · intro h
        split at h
        · cases h
        · next hno =>
          split at h
          · cases h
          · next hplace =>
            cases h
            exact ⟨named, rfl, htruthy, rfl, hno, hplace⟩
      · rintro ⟨other, hother, -, rfl, hno, hplace⟩
        cases hother
        rw [if_neg hno, if_neg hplace]

/-- Whether a file names another one does not depend on its path. -/
theorem base?_eq_none {parts : List (String × Document)} (h : base? path parts = .ok none)
    (other : String) : base? other parts = .ok none := by
  unfold base? at h ⊢
  split at h
  · next hnone => rfl
  · next named hnamed =>
    by_cases htruthy : (!named.isTruthy) = true
    · rw [if_pos htruthy]
    · rw [if_neg htruthy] at h
      dsimp only at h
      split at h
      · cases h
      · split at h
        · cases h
        · cases h

/-- The place of a path that is read beside another one. -/
theorem place_join (path named : String) :
    place ((Path.ofText path).parent.join (Path.ofText named)).text =
      ((Path.ofText path).parent.join (Path.ofText named)).destination := by
  rw [place, Path.ofText_text ((Path.sound_ofText path).parent.join (Path.sound_ofText named))]

/-- **No file is followed from itself.** -/
theorem Extends.place_ne (h : Extends read path base) : place base ≠ place path := by
  obtain ⟨parts, -, hbase⟩ := h
  obtain ⟨named, -, -, rfl, -, hplace⟩ := base?_eq_some.mp hbase
  rw [place_join]
  exact hplace

theorem exists_read_of_partsOf {parts : List (String × Document)} (h : partsOf read path = .ok parts) :
    ∃ d, read path = some d := by
  unfold partsOf at h
  cases hread : read path with
  | none =>
    rw [hread] at h
    cases h
  | some d => exact ⟨d, rfl⟩

theorem partsOf_congr {parts : List (String × Document)} {other : String}
    (h : partsOf read path = .ok parts) (hread : read other = read path) :
    partsOf read other = .ok parts := by
  unfold partsOf at h ⊢
  rw [hread]
  split at h
  · cases h
  · exact h
  · exact h
  · cases h

section

variable {tree : FileTree}

/-- Paths to one place read one file. -/
theorem read_congr {other : String} {d d' : Document} (h : tree.read? path = some d)
    (h' : tree.read? other = some d') (hplace : place path = place other) : d = d' := by
  obtain ⟨-, names, hdestination, hlookup⟩ := FileTree.lookup_of_read? h
  obtain ⟨-, names', hdestination', hlookup'⟩ := FileTree.lookup_of_read? h'
  have hsame : (⟨"", names⟩ : Path) = ⟨"", names'⟩ := by
    rw [← hdestination, ← hdestination']
    exact hplace
  cases hsame
  exact Option.some.inj (hlookup.symm.trans hlookup')

theorem partsOf_eq_of_place {other : String} {parts parts' : List (String × Document)}
    (hplace : place path = place other) (h : partsOf tree.read? path = .ok parts)
    (h' : partsOf tree.read? other = .ok parts') : parts = parts' := by
  obtain ⟨d, hd⟩ := exists_read_of_partsOf h
  obtain ⟨d', hd'⟩ := exists_read_of_partsOf h'
  obtain rfl := read_congr hd hd' hplace
  exact Except.ok.inj (h.symm.trans (partsOf_congr h' (hd.trans hd'.symm)))

/-- **Which file is followed next is told by where the last one is.** The name of the base is read in
the file, and is looked up beside the file; its path does not matter otherwise. -/
theorem Extends.place_congr {path' base' : String} (h : Extends tree.read? path base)
    (h' : Extends tree.read? path' base') (hplace : place path = place path') :
    place base = place base' := by
  obtain ⟨parts, hparts, hbase⟩ := h
  obtain ⟨parts', hparts', hbase'⟩ := h'
  obtain ⟨d, hd⟩ := exists_read_of_partsOf hparts
  obtain ⟨d', hd'⟩ := exists_read_of_partsOf hparts'
  obtain rfl := partsOf_eq_of_place hplace hparts hparts'
  obtain ⟨named, hnamed, -, rfl, -⟩ := base?_eq_some.mp hbase
  obtain ⟨named', hnamed', -, rfl, -⟩ := base?_eq_some.mp hbase'
  obtain rfl := Option.some.inj (hnamed.symm.trans hnamed')
  rw [place_join, place_join]
  exact Path.destination_join_congr _ (FileTree.lookup_of_read? hd).1 (FileTree.lookup_of_read? hd').1
    hplace

/-- An outcome of files that are laid over each other is a result if the farther ones give one. -/
theorem exists_ok_of_map {parts : List (String × Document)}
    (h : ∃ merged, outcome.map (fun below => Document.partsOver below parts) = .ok merged) :
    ∃ merged, outcome = .ok merged := by
  obtain ⟨merged, h⟩ := h
  obtain ⟨below, hbelow, -⟩ := map_eq_ok.mp h
  exact ⟨below, hbelow⟩

/-- **Files that end in a result are the same ones from any path to the first.** One file can have
several paths, so the files of two chains are compared by their places. -/
theorem Follows.map_place_congr {path' : String} {chain' : List String}
    {outcome' : Except Fault (List (String × Document))} (h : Follows tree.read? path chain outcome)
    (hok : ∃ merged, outcome = .ok merged) (h' : Follows tree.read? path' chain' outcome')
    (hok' : ∃ merged, outcome' = .ok merged) (hplace : place path = place path') :
    chain.map place = chain'.map place := by
  -- the two chains are taken apart together; at the same place they hold the same file
  induction h generalizing path' chain' outcome' with
  | refused =>
    obtain ⟨merged, hmerged⟩ := hok
    cases hmerged
  | top hparts hbase =>
    cases h' with
    | top => rw [List.map_singleton, List.map_singleton, hplace]
    | refused =>
      obtain ⟨merged, hmerged⟩ := hok'
      cases hmerged
    | onto hparts' hbase' =>
      obtain rfl := partsOf_eq_of_place hplace hparts hparts'
      rw [base?_eq_none hbase] at hbase'
      cases hbase'
  | onto hparts hbase _ ih =>
    cases h' with
    | top hparts' hbase' =>
      obtain rfl := partsOf_eq_of_place hplace hparts hparts'
      rw [base?_eq_none hbase'] at hbase
      cases hbase
    | refused =>
      obtain ⟨merged, hmerged⟩ := hok'
      cases hmerged
    | onto hparts' hbase' hrest' =>
      have hnext := Extends.place_congr ⟨_, hparts, hbase⟩ ⟨_, hparts', hbase'⟩ hplace
      rw [List.map_cons, List.map_cons, hplace,
        ih (exists_ok_of_map hok) hrest' (exists_ok_of_map hok') hnext]

/-- **Files that lead back to a place give no result.** From the same place on the same files would
follow, so a chain would have a proper part as long as itself. -/
theorem not_ok_of_return {before : List String} (h : Follows tree.read? path chain outcome)
    (hleads : Leads tree.read? path before target) (hne : before ≠ [])
    (hplace : place target = place path) : ¬ ∃ merged, outcome = .ok merged := by
  intro hok
  obtain ⟨rest, outcome', rfl, hrest, hok'⟩ := h.of_leads hleads
  obtain ⟨merged, rfl⟩ := hok
  have hsame := h.map_place_congr ⟨merged, rfl⟩ hrest (hok' merged rfl) hplace.symm
  -- from the same place on there are as many files as were left before it
  have hlen := congrArg List.length hsame
  rw [List.length_map, List.length_map, List.length_append] at hlen
  exact hne (List.length_eq_zero_iff.mp (by omega))

/-- Files that end in a result are at different places. -/
theorem Follows.nodup_place (h : Follows tree.read? path chain outcome)
    (hok : ∃ merged, outcome = .ok merged) : (chain.map place).Nodup := by
  induction h with
  | refused =>
    obtain ⟨merged, hmerged⟩ := hok
    cases hmerged
  | top => exact List.pairwise_singleton _ _
  | @onto path base parts chain outcome hparts hbase hrest ih =>
    rw [List.map_cons, List.nodup_cons]
    refine ⟨?_, ih (exists_ok_of_map hok)⟩
    intro hmem
    obtain ⟨target, htarget, hplace⟩ := List.mem_map.mp hmem
    obtain ⟨before, hleads⟩ := hrest.exists_leads target htarget
    exact not_ok_of_return (.onto hparts hbase hrest) (.onto ⟨parts, hparts, hbase⟩ hleads)
      (List.cons_ne_nil _ _) hplace hok

/-- No more different places are read than there are files. -/
theorem length_le_of_nodup_place (hread : ∀ q ∈ chain, ∃ d, tree.read? q = some d)
    (h : (chain.map place).Nodup) : chain.length ≤ tree.length := by
  have hsub : chain.map place ⊆ tree.map fun file => (⟨"", file.1⟩ : Path) := by
    intro there hthere
    obtain ⟨q, hq, rfl⟩ := List.mem_map.mp hthere
    obtain ⟨d, hd⟩ := hread q hq
    obtain ⟨-, names, hdestination, hlookup⟩ := FileTree.lookup_of_read? hd
    obtain ⟨before, after, rfl, -⟩ := List.lookup_eq_some_iff.mp hlookup
    rw [place, hdestination]
    simp
  simpa using (h.subperm hsub).length_le

theorem Leads.exists_read (h : Leads read path chain target) :
    ∀ q ∈ chain, ∃ d, read q = some d := by
  induction h with
  | here =>
    intro q hq
    cases hq
  | onto hextends _ ih =>
    intro q hq
    rcases List.mem_cons.mp hq with rfl | hq
    · obtain ⟨parts, hparts, -⟩ := hextends
      exact exists_read_of_partsOf hparts
    · exact ih q hq

theorem Follows.exists_read (h : Follows read path chain outcome)
    (hok : ∃ merged, outcome = .ok merged) : ∀ q ∈ chain, ∃ d, read q = some d := by
  induction h with
  | refused =>
    obtain ⟨merged, hmerged⟩ := hok
    cases hmerged
  | top hparts =>
    intro q hq
    obtain rfl := List.mem_singleton.mp hq
    exact exists_read_of_partsOf hparts
  | onto hparts _ _ ih =>
    intro q hq
    rcases List.mem_cons.mp hq with rfl | hq
    · exact exists_read_of_partsOf hparts
    · exact ih (exists_ok_of_map hok) q hq

/-- **Loading ends, in a result, an issue with a value, or at the limit**, whatever the limit to the
number of files is. A result comes from different files of the tree. With fewer files in the tree than
can be followed, the limit can only be reached by coming back to one. A file that names itself is not
followed; after any other return there is no result, and if it is to the same path, the limit is
reached. -/
theorem extended_of_tree (tree : FileTree) (limit : Nat) (path : String) :
    ((∃ chain, Follows tree.read? path chain (extended tree.read? limit path) ∧
        chain.length ≤ limit ∧
        ((∃ merged, extended tree.read? limit path = .ok merged) ∧ (chain.map place).Nodup ∧
            chain.length ≤ tree.length ∨
          ∃ f, extended tree.read? limit path = .error f ∧ f.kind = .value)) ∨
      ∃ chain base, Leads tree.read? path chain base ∧ chain.length = limit ∧
        extended tree.read? limit path = fail .tooManyFiles ∧
        ((chain.map place).Nodup → limit ≤ tree.length)) ∧
    (∀ p base, Extends tree.read? p base → place base ≠ place p) ∧
    (∀ before p after q, Leads tree.read? path before p → Leads tree.read? p after q → after ≠ [] →
      place q = place p → ¬ ∃ merged, extended tree.read? limit path = .ok merged) ∧
    ∀ before p cycle, Leads tree.read? path before p → Leads tree.read? p cycle p → cycle ≠ [] →
      extended tree.read? limit path = fail .tooManyFiles := by
  have houtcome := extended_outcome tree.read? limit path
  -- different places of files are at most as many as there are files, which bounds both kinds of
  -- chain
  refine ⟨?_, fun p base h => h.place_ne, ?_, ?_⟩
  · rcases houtcome with ⟨chain, hfollows, hlen⟩ | ⟨chain, base, hleads, hlen, hmany⟩
    · refine .inl ⟨chain, hfollows, hlen, ?_⟩
      change Follows tree.read? path chain (extended tree.read? limit path) at hfollows
      cases hextended : extended tree.read? limit path with
      | ok merged =>
        rw [hextended] at hfollows
        have hnodup := hfollows.nodup_place ⟨merged, rfl⟩
        exact .inl ⟨⟨merged, rfl⟩, hnodup,
          length_le_of_nodup_place (hfollows.exists_read ⟨merged, rfl⟩) hnodup⟩
      | error f =>
        rw [hextended] at hfollows
        exact .inr ⟨f, rfl, hfollows.kind_of_error⟩
    · refine .inr ⟨chain, base, hleads, hlen, hmany, ?_⟩
      intro hnodup
      rw [← hlen]
      exact length_le_of_nodup_place hleads.exists_read hnodup
  · intro before p after q hbefore hafter hne hplace hok
    rcases houtcome with ⟨chain, hfollows, -⟩ | ⟨-, -, -, -, hmany⟩
    · obtain ⟨rest, outcome', -, hrest, hok'⟩ := hfollows.of_leads hbefore
      obtain ⟨merged, hmerged⟩ := hok
      exact not_ok_of_return hrest hafter hne hplace (hok' merged hmerged)
    · obtain ⟨merged, hmerged⟩ := hok
      cases hmany.symm.trans hmerged
  · intro before p cycle hbefore hcycle hne
    exact extended_of_cycle hbefore hcycle hne limit

/-- Two files that extend each other. -/
def mutualFiles : FileTree :=
  FileTree.ofList [("a.json", .object [("extends", .text "b.json")]),
    ("b.json", .object [("extends", .text "a.json")])]

/-- Two files that extend each other are followed to the limit, however far off it is, which is no issue
with a value. -/
theorem extended_mutualFiles : ∃ f : Fault, f.kind = .recursion ∧
    ∀ limit, extended mutualFiles.read? limit "a.json" = .error f := by
  have hread : ∀ name, name = "a.json" ∨ name = "b.json" →
      mutualFiles.read? name = mutualFiles.lookup [name] := by
    rintro name hname
    have hslash : name.startsWith "/" = false := by
      rw [String.startsWith_string_eq_false_iff]
      rcases hname with rfl | rfl
      · decide
      · decide
    have hpath : FileTree.canBePath name = true := by
      rw [FileTree.canBePath, hslash]
      rcases hname with rfl | rfl
      · decide
      · decide
    rw [FileTree.read?, hpath]
    rcases hname with rfl | rfl
    · rfl
    · rfl
  have hforth : Extends mutualFiles.read? "a.json" "b.json" := by
    refine ⟨[("extends", .text "b.json")], ?_, ?_⟩
    · rw [partsOf, hread _ (.inl rfl)]
      rfl
    · exact base?_eq_some.mpr ⟨.text "b.json", rfl, rfl, by decide, by decide, by decide⟩
  have hback : Extends mutualFiles.read? "b.json" "a.json" := by
    refine ⟨[("extends", .text "a.json")], ?_, ?_⟩
    · rw [partsOf, hread _ (.inr rfl)]
      rfl
    · exact base?_eq_some.mpr ⟨.text "a.json", rfl, rfl, by decide, by decide, by decide⟩
  have hcycle : Leads mutualFiles.read? "a.json" ["a.json", "b.json"] "a.json" :=
    .onto hforth (.onto hback (.here _))
  exact ⟨_, rfl, extended_of_cycle (.here _) hcycle (List.cons_ne_nil _ _)⟩

end

end ContractKit.Settings
