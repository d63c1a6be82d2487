import Mathlib
import Uncomment.Process
import Uncomment.Proofs.Stages

/-! What the tasks of a batch have in common with its root, and that no file is among them twice. A
walk does not follow links, and so the names behind the root tell the files apart. -/
namespace Uncomment
open Ascii

/-! ## Names behind a path -/

namespace Path

/-- Names put behind a path one after the other. -/
def joinAll (p : Path) (names : List Bytes) : Path := names.foldl (fun p name => p.join ⟨name⟩) p

theorem components_joinAll {p : Path} (hp : p.isEmpty = false) {names : List Bytes}
    (h : ∀ name ∈ names, IsName name) :
    (p.joinAll names).components = p.components ++ names.map Component.name := by
  induction names generalizing p with
  | nil => simp [joinAll]
  | cons name names ih =>
    have hname := h name List.mem_cons_self
    have hnext := ih (join_not_isEmpty p hname.isPart) fun n hn => h n (List.mem_cons_of_mem _ hn)
    rw [components_join hp hname] at hnext
    simpa [joinAll] using hnext

theorem joinAll_inj {p : Path} (hp : p.isEmpty = false) {names names' : List Bytes}
    (h : ∀ name ∈ names, IsName name) (h' : ∀ name ∈ names', IsName name)
    (heq : (p.joinAll names).components = (p.joinAll names').components) : names = names' := by
  rw [components_joinAll hp h, components_joinAll hp h', List.append_cancel_left_eq] at heq
  exact List.map_injective_iff.2 (fun a b hab => Component.name.inj hab) heq

theorem joinAll_eq {p : Path} (hp : p.isEmpty = false) (hlast : p.bytes.getLast? ≠ some slash)
    {names : List Bytes} (hne : names ≠ []) (h : ∀ name ∈ names, IsName name) :
    p.joinAll names = ⟨p.bytes ++ slash :: Bytes.join slash names⟩ := by
  induction names generalizing p with
  | nil => exact absurd rfl hne
  | cons name names ih =>
    have hname := h name List.mem_cons_self
    have hjoin := join_of_ne_slash hp hlast hname.isPart
    by_cases hnames : names = []
    · subst hnames
      simpa [joinAll, Bytes.join] using hjoin
    · have hrest := ih (join_not_isEmpty p hname.isPart) (getLast?_join p hname) hnames
        fun n hn => h n (List.mem_cons_of_mem _ hn)
      rw [Bytes.join_cons _ _ hnames]
      simpa [joinAll, hjoin] using hrest

theorem here_joinAll {names : List Bytes} (hne : names ≠ []) (h : ∀ name ∈ names, IsName name) :
    here.joinAll names = ⟨[dot] ++ slash :: Bytes.join slash names⟩ :=
  joinAll_eq (by decide) (by decide) hne h

theorem parts_here_joinAll {names : List Bytes} (hne : names ≠ []) (h : ∀ name ∈ names, IsName name) :
    (here.joinAll names).lead = some .here ∧ (here.joinAll names).parts = [] :: names := by
  rw [here_joinAll hne h]
  refine ⟨lead_append (by simp) _, ?_⟩
  rw [parts_append (by simp), Bytes.split_join hne fun n hn => (h n hn).no_slash]
  rfl

/-- Names behind `.` without the `.`. -/
theorem relativeTo?_here {names : List Bytes} (hne : names ≠ []) (h : ∀ name ∈ names, IsName name) :
    relativeTo? here (here.joinAll names) = some ⟨Bytes.join slash names⟩ := by
  obtain ⟨hlead, hparts⟩ := parts_here_joinAll hne h
  have hdrop : dropParts 0 ([] :: names) = names := by
    obtain ⟨name, rest, rfl⟩ := List.exists_cons_of_ne_nil hne
    simp [dropParts, isFiller, (h name List.mem_cons_self).ne_nil, (h name List.mem_cons_self).ne_here]
  have hhere : here.components = [.here] := by decide
  rw [relativeTo?, components_joinAll (by decide) h, hlead, hparts, hhere]
  simp [hdrop, assemble, dropEndWhile_names h]

end Path

theorem Disk.reach_of_here {d : Disk} {names : List Bytes} (hne : names ≠ [])
    (h : ∀ name ∈ names, IsName name) {loc : Location}
    (hreach : d.reach true (Path.here.joinAll names) = .ok loc) :
    d.reach true ⟨Bytes.join slash names⟩ = .ok loc := by
  obtain ⟨hnul, -, hleads⟩ := Disk.reach_eq_ok.1 hreach
  obtain ⟨hlead, hparts⟩ := Path.parts_here_joinAll hne h
  have hsteps : Disk.steps (Path.here.joinAll names) = .here :: .here :: names.map Component.name := by
    rw [Disk.steps, hlead, hparts, List.map_cons, Path.map_step h]
    rfl
  rw [hsteps] at hleads
  rw [Path.here_joinAll hne h] at hnul
  refine Disk.reach_eq_ok.2 ⟨fun hmem => hnul (by simp [hmem]), ?_, ?_⟩
  · obtain ⟨name, rest, rfl⟩ := List.exists_cons_of_ne_nil hne
    have hname := h name List.mem_cons_self
    cases rest <;> simp [Path.isEmpty, Bytes.join, List.intercalate, hname.ne_nil]
  · rw [Path.steps_of_names hne h]
    cases hleads with
    | here _ hleads =>
      cases hleads with
      | here _ hleads => exact hleads

/-- Two paths that differ in their components and do not lead to one location. -/
structure Disk.Apart (d : Disk) (p q : Path) : Prop where
  components : p.components ≠ q.components
  reach : ∀ loc, d.reach true p = .ok loc → d.reach true q ≠ .ok loc

theorem Disk.Apart.symm {d : Disk} {p q : Path} (h : d.Apart p q) : d.Apart q p :=
  ⟨h.components.symm, fun loc hq hp => h.reach loc hp hq⟩

/-- Paths of entries at or below a directory, each once. -/
structure Enumerates (d : Disk) (directory : Path) (place : Location) (paths : List Path) : Prop where
  nodup : paths.Nodup
  below : ∀ p ∈ paths, ∃ names, (∀ name ∈ names, IsName name) ∧ p = directory.joinAll names ∧
    d.reach true p = .ok (place ++ names)

namespace Enumerates
variable {d : Disk} {directory : Path} {place : Location} {paths paths' : List Path}

theorem nil : Enumerates d directory place [] := ⟨List.nodup_nil, by simp⟩

theorem singleton (h : d.reach true directory = .ok place) :
    Enumerates d directory place [directory] := by
  refine ⟨List.nodup_singleton _, fun p hp => ⟨[], by simp, ?_, ?_⟩⟩
  · simpa [Path.joinAll] using hp
  · rw [List.mem_singleton.1 hp, h, List.append_nil]

/-- Paths of the entries of a directory are paths of the directory, and it is none of them. -/
theorem entries (hempty : directory.isEmpty = false) {entries : List (Bytes × Node)}
    (hnodup : (entries.map Prod.fst).Nodup) (hnames : ∀ e ∈ entries, IsName e.1)
    {found : Bytes × Node → List Path}
    (h : ∀ e ∈ entries, Enumerates d (directory.join ⟨e.1⟩) (place ++ [e.1]) (found e)) :
    Enumerates d directory place (entries.flatMap found) ∧ directory ∉ entries.flatMap found := by
  have hbelow : ∀ e ∈ entries, ∀ p ∈ found e, ∃ names, (∀ name ∈ e.1 :: names, IsName name) ∧
      p = directory.joinAll (e.1 :: names) ∧ d.reach true p = .ok (place ++ e.1 :: names) := by
    intro e he p hp
    obtain ⟨names, hnames', hjoin, hreach⟩ := (h e he).below p hp
    refine ⟨names, ?_, hjoin, by simpa using hreach⟩
    intro name hname
    rcases List.mem_cons.1 hname with rfl | hname
    · exact hnames e he
    · exact hnames' name hname
  refine ⟨⟨?_, ?_⟩, ?_⟩
  · rw [List.nodup_flatMap]
    refine ⟨fun e he => (h e he).nodup, ?_⟩
    refine (List.pairwise_map.1 hnodup).imp_of_mem fun {e e'} he he' hne p hp hp' => hne ?_
    obtain ⟨names, hn, rfl, -⟩ := hbelow e he p hp
    obtain ⟨names', hn', heq, -⟩ := hbelow e' he' _ hp'
    exact List.head_eq_of_cons_eq (Path.joinAll_inj hempty hn hn' (congrArg _ heq))
  · intro p hp
    obtain ⟨e, he, hp⟩ := List.mem_flatMap.1 hp
    obtain ⟨names, hn, hjoin, hreach⟩ := hbelow e he p hp
    exact ⟨e.1 :: names, hn, hjoin, hreach⟩
  · intro hmem
    obtain ⟨e, he, hp⟩ := List.mem_flatMap.1 hmem
    obtain ⟨names, hn, hjoin, -⟩ := hbelow e he _ hp
    have hnil : [] = e.1 :: names := Path.joinAll_inj hempty (by simp) hn (congrArg _ hjoin)
    exact List.cons_ne_nil _ _ hnil.symm

theorem apart (h : Enumerates d directory place paths) (hempty : directory.isEmpty = false) :
    paths.Pairwise d.Apart := by
  refine h.nodup.imp_of_mem fun {p q} hp hq hne => ?_
  obtain ⟨names, hn, rfl, hreach⟩ := h.below p hp
  obtain ⟨names', hn', rfl, hreach'⟩ := h.below q hq
  refine ⟨fun heq => hne ?_, fun loc hloc hloc' => hne ?_⟩
  · rw [Path.joinAll_inj hempty hn hn' heq]
  · have hsame : place ++ names = place ++ names' := by simp_all
    rw [List.append_cancel_left hsame]

/-- Without the leading `.` the paths are still apart. -/
theorem apart_relative (h : Enumerates d Path.here place paths) (hnone : Path.here ∉ paths) :
    (paths.map fun p => (Path.relativeTo? Path.here p).getD p).Pairwise d.Apart := by
  rw [List.pairwise_map]
  refine h.nodup.imp_of_mem fun {p q} hp hq hne => ?_
  obtain ⟨names, hn, rfl, hreach⟩ := h.below p hp
  obtain ⟨names', hn', rfl, hreach'⟩ := h.below q hq
  have hnames : names ≠ [] := fun hnil => hnone (by simpa [hnil, Path.joinAll] using hp)
  have hnames' : names' ≠ [] := fun hnil => hnone (by simpa [hnil, Path.joinAll] using hq)
  rw [Path.relativeTo?_here hnames hn, Path.relativeTo?_here hnames' hn']
  refine ⟨fun heq => hne ?_, fun loc hloc hloc' => hne ?_⟩
  · rw [Option.getD_some, Option.getD_some, Path.components_of_names hnames hn,
      Path.components_of_names hnames' hn'] at heq
    rw [List.map_injective_iff.2 (fun a b hab => Component.name.inj hab) heq]
  · rw [Option.getD_some, Disk.reach_of_here hnames hn hreach] at hloc
    rw [Option.getD_some, Disk.reach_of_here hnames' hn' hreach'] at hloc'
    have hsame : place ++ names = place ++ names' := by simp_all
    rw [List.append_cancel_left hsame]

end Enumerates

/-! ## Entries of a directory -/

namespace Disk
variable {d : Disk}

theorem list_eq_ok {p : Path} {entries : List (Bytes × Node)} (h : d.list p = .ok entries) :
    ∃ loc, d.resolve true p = .ok loc ∧ d.node? loc = some .directory ∧ entries = d.children loc := by
  rw [list] at h
  cases hr : d.resolve true p with
  | error fault => simp [hr, bind, Except.bind] at h
  | ok loc =>
    simp only [hr, bind, Except.bind] at h
    split at h
    · next hnode => exact ⟨loc, rfl, hnode, by simpa [pure, Except.pure] using h.symm⟩
    · cases h

theorem map_fst_children (d : Disk) (loc : Location) :
    (d.children loc).map Prod.fst =
      d.places.filterMap fun place => if place.dropLast == loc then place.getLast? else none := by
  rw [children, places, List.map_filterMap, List.filterMap_map]
  refine List.filterMap_congr fun e _ => ?_
  dsimp only [Function.comp_apply]
  split_ifs
  · rw [Option.map_map]
    exact Option.map_id'
  · rfl

theorem WellFormed.nodup_children (wf : d.WellFormed) (loc : Location) :
    ((d.children loc).map Prod.fst).Nodup := by
  rw [map_fst_children]
  refine wf.nodup.filterMap fun place place' name h h' => ?_
  rw [Option.mem_def] at h h'
  split_ifs at h h' with hloc hloc'
  rw [← List.dropLast_append_getLast? name h, ← List.dropLast_append_getLast? name h',
    beq_iff_eq.1 hloc, beq_iff_eq.1 hloc']

theorem WellFormed.isName_child (wf : d.WellFormed) {loc : Location} {e : Bytes × Node}
    (he : e ∈ d.children loc) : IsName e.1 :=
  wf.isName (wf.node?_of_mem (mem_children.1 he)) e.1 (by simp)

/-- An entry that is no link is found behind the path of its directory. -/
theorem WellFormed.reach_child (wf : d.WellFormed) {p : Path} {loc : Location}
    (h : d.reach true p = .ok loc) {name : Bytes} {node : Node} (he : (name, node) ∈ d.children loc)
    (hplain : ∀ target, node ≠ .link target) :
    d.reach true (p.join ⟨name⟩) = .ok (loc ++ [name]) := by
  have hnode : d.node? (loc ++ [name]) = some node := wf.node?_of_mem (mem_children.1 he)
  exact reach_join h (wf.parent hnode) (wf.isName_child he) hnode hplain

end Disk

def WalkItem.path : WalkItem → Path
  | .file path => path
  | .failed path _ => path

namespace Walk
variable [IgnoreRules] {d : Disk}

/-- The items for one entry of a directory. -/
def entryItems (d : Disk) (p : Plan) (scope : IgnoreRules.Scope) (directory : Path) (levels : Nat)
    (e : Bytes × Node) : List WalkItem :=
  (p.ofEntry scope directory e.1 e.2).flatMap
    (Find.items fun path => below d p scope path levels)

/-- An entry that is not passed over is a file to send or a directory to go down. -/
theorem entryItems_eq (d : Disk) (p : Plan) (scope : IgnoreRules.Scope) (directory : Path)
    (levels : Nat) (e : Bytes × Node) :
    entryItems d p scope directory levels e =
      if p.admits scope (directory.join ⟨e.1⟩) e.1 e.2 then
        match e.2 with
        | .file .. => fileItem (directory.join ⟨e.1⟩)
        | .directory => below d p scope (directory.join ⟨e.1⟩) levels
        | .link _ => []
      else [] := by
  obtain ⟨name, node⟩ := e
  rw [entryItems, Plan.ofEntry.eq_def]
  dsimp only
  split_ifs
  · cases node with
    | file content mode => exact flatMap_items _ _
    | directory => exact List.append_nil _
    | link target => rfl
  · rfl

theorem below_of_list {directory : Path} {entries : List (Bytes × Node)}
    (h : d.list directory = .ok entries) (p : Plan) (around : IgnoreRules.Scope) (levels : Nat) :
    below d p around directory (levels + 1) = entries.flatMap
      (entryItems d p (IgnoreRules.enter d p.ignoring around directory) directory levels) := by
  rw [below, visit, h]
  exact List.flatMap_assoc

theorem below_of_error {directory : Path} {fault : IoFault} (h : d.list directory = .error fault)
    (p : Plan) (around : IgnoreRules.Scope) (levels : Nat) :
    below d p around directory (levels + 1) = [faultItem directory fault] := by
  rw [below, visit, h]
  rfl

theorem enumerates_below (wf : d.WellFormed) (p : Plan) (around : IgnoreRules.Scope)
    {directory : Path} {place : Location} (h : d.reach true directory = .ok place) (levels : Nat) :
    Enumerates d directory place ((below d p around directory levels).map WalkItem.path) ∧
      WalkItem.file directory ∉ below d p around directory levels := by
  induction levels generalizing around directory place with
  | zero => exact ⟨.nil, by simp [below]⟩
  | succ levels ih =>
    cases hlist : d.list directory with
    | error fault =>
      rw [below_of_error hlist]
      exact ⟨.singleton h, by simp [faultItem]⟩
    | ok entries =>
      rw [below_of_list hlist, List.map_flatMap]
      obtain ⟨loc, hresolve, -, rfl⟩ := Disk.list_eq_ok hlist
      obtain rfl : place = loc := by simpa [h] using Disk.reach_of_resolve hresolve
      generalize IgnoreRules.enter d p.ignoring around directory = scope
      have hentry : ∀ e ∈ d.children place, Enumerates d (directory.join ⟨e.1⟩) (place ++ [e.1])
          ((entryItems d p scope directory levels e).map WalkItem.path) := by
        rintro ⟨name, node⟩ he
        rw [entryItems_eq]
        split_ifs
        · cases node with
          | file content mode =>
            have hreach := wf.reach_child h he (by simp)
            simp only [fileItem]
            split_ifs
            · exact .singleton hreach
            · exact .nil
          | directory => exact (ih scope (wf.reach_child h he (by simp))).1
          | link target => exact .nil
        · exact .nil
      obtain ⟨henumerates, hnone⟩ := Enumerates.entries (Disk.reach_eq_ok.1 h).2.1
        (wf.nodup_children place) (fun e he => wf.isName_child he) hentry
      refine ⟨henumerates, fun hfile => hnone ?_⟩
      rw [← List.map_flatMap]
      exact List.mem_map_of_mem hfile

end Walk

namespace GlobTarget.Found
variable {d : Disk}

theorem files_concat (parts : List Found) : (concat parts).files = parts.flatMap files := by
  induction parts with
  | nil => rfl
  | cons part parts ih =>
    rw [List.flatMap_cons, ← ih]
    rfl

/-- The files for one entry of a directory. -/
def entryFiles (d : Disk) (hidden : Bool) (directory : Path) (levels : Nat) (e : Bytes × Node) :
    List Path :=
  if (hidden || !Walk.isHidden e.1) && !Walk.isVersionControl e.1 e.2 then
    match e.2 with
    | .file .. => [directory.join ⟨e.1⟩]
    | .directory => (below d hidden (directory.join ⟨e.1⟩) levels).files
    | .link _ => []
  else []

theorem files_below_of_list {directory : Path} {entries : List (Bytes × Node)}
    (h : d.list directory = .ok entries) (hidden : Bool) (levels : Nat) :
    (below d hidden directory (levels + 1)).files =
      entries.flatMap (entryFiles d hidden directory levels) := by
  rw [below, h]
  dsimp only
  rw [files_concat, List.flatMap_map]
  refine List.flatMap_congr fun e _ => ?_
  rw [entryFiles]
  split_ifs
  · cases e.2 <;> rfl
  · rfl

theorem enumerates_below (wf : d.WellFormed) (hidden : Bool) {directory : Path} {place : Location}
    (h : d.reach true directory = .ok place) (levels : Nat) :
    Enumerates d directory place (below d hidden directory levels).files ∧
      directory ∉ (below d hidden directory levels).files := by
  induction levels generalizing directory place with
  | zero => exact ⟨.nil, by simp [below]⟩
  | succ levels ih =>
    cases hlist : d.list directory with
    | error fault =>
      rw [below, hlist]
      exact ⟨.nil, by simp [unreadable]⟩
    | ok entries =>
      rw [files_below_of_list hlist]
      obtain ⟨loc, hresolve, -, rfl⟩ := Disk.list_eq_ok hlist
      obtain rfl : place = loc := by simpa [h] using Disk.reach_of_resolve hresolve
      refine Enumerates.entries (Disk.reach_eq_ok.1 h).2.1 (wf.nodup_children place)
        (fun e he => wf.isName_child he) ?_
      rintro ⟨name, node⟩ he
      rw [entryFiles]
      split_ifs
      · cases node with
        | file content mode => exact .singleton (wf.reach_child h he (by simp))
        | directory => exact (ih (wf.reach_child h he (by simp))).1
        | link target => exact .nil
      · exact .nil

end GlobTarget.Found

namespace GlobTarget
variable {d : Disk}

theorem apart_search (wf : d.WellFormed) (hidden : Bool) (s : Search) :
    (search d hidden s).files.Pairwise d.Apart := by
  rw [search]
  generalize s.depth.getD d.entries.length = levels
  split_ifs with hempty
  · rw [Found.atBase]
    split_ifs
    · simp
    · cases hstat : d.stat Path.here with
      | error fault => simp [Found.unreadable]
      | ok node =>
        obtain ⟨place, hresolve, -⟩ := Disk.stat_eq_ok.1 hstat
        cases node with
        | file content mode => simp
        | link target => simp
        | directory =>
          obtain ⟨henumerates, hnone⟩ :=
            Found.enumerates_below wf hidden (Disk.reach_of_resolve hresolve) levels
          exact henumerates.apart_relative hnone
  · rw [Found.atBase]
    split_ifs
    · simp
    · cases hstat : d.stat s.base with
      | error fault => simp [Found.unreadable]
      | ok node =>
        obtain ⟨place, hresolve, -⟩ := Disk.stat_eq_ok.1 hstat
        cases node with
        | file content mode => simp
        | link target => simp
        | directory =>
          exact (Found.enumerates_below wf hidden (Disk.reach_of_resolve hresolve) levels).1.apart
            (by simpa using hempty)

end GlobTarget

theorem apart_expandGlob [Globs] {d : Disk} (wf : d.WellFormed) {options : WalkOptions}
    {pattern : Path} {paths : List Path} (h : (expandGlob d options pattern).value = .ok paths) :
    paths.Pairwise d.Apart := by
  rw [expandGlob] at h
  split at h
  · simp at h
  · next accepts _ =>
    dsimp only at h
    split_ifs at h
    obtain rfl := Except.ok.inj h
    have hfound := GlobTarget.apart_search wf options.hidden (.ofPattern pattern)
    have hfiltered := (hfound.filter fun p => accepts p.bytes).filter fun p => p.language?.isSome
    exact (List.Perm.pairwise_iff Disk.Apart.symm (List.mergeSort_perm _ _)).2 hfiltered

end Uncomment
