import Mathlib
import Uncomment.Disk
import Uncomment.Proofs.Paths

/-! Disks as a whole: which tables of entries are disks, how a path leads to a location, and what
of that depends on the contents of files. Paths are resolved by the outline of a disk alone, that
is by its directories, its links and the names of its files. -/
namespace Uncomment
open Ascii

/-- A node without the content of a file. -/
def Node.outline : Node → Node
  | .file _ mode => .file [] mode
  | node => node

namespace Node

theorem outline_eq_directory {n : Node} : n.outline = .directory ↔ n = .directory := by
  cases n <;> simp [outline]

end Node

namespace Disk

/-- The locations of the entries. -/
def places (d : Disk) : List Location := d.entries.map Prod.fst

/-- A table of entries that is a file system: every entry has its own place, which is in a
directory and has a proper name, and the working directory is there. -/
structure WellFormed (d : Disk) : Prop where
  nodup : d.places.Nodup
  named : ∀ loc ∈ d.places, loc ≠ [] ∧ ∀ name ∈ loc, IsName name
  nested : ∀ loc ∈ d.places, d.node? loc.dropLast = some .directory
  home : d.node? d.home = some .directory

theorem wellFormed_iff (d : Disk) :
    d.WellFormed ↔ d.places.Nodup ∧ (∀ loc ∈ d.places, loc ≠ [] ∧ ∀ name ∈ loc, IsName name) ∧
      (∀ loc ∈ d.places, d.node? loc.dropLast = some .directory) ∧
      d.node? d.home = some .directory :=
  ⟨fun h => ⟨h.nodup, h.named, h.nested, h.home⟩, fun ⟨h1, h2, h3, h4⟩ => ⟨h1, h2, h3, h4⟩⟩

instance (d : Disk) : Decidable d.WellFormed := decidable_of_iff _ (wellFormed_iff d).symm

/-! ## Looking up -/

section Lookup
variable {α : Type} {table : List (Location × α)} {loc : Location}

theorem mem_of_lookup {a : α} (h : table.lookup loc = some a) : (loc, a) ∈ table := by
  obtain ⟨before, after, rfl, -⟩ := List.lookup_eq_some_iff.1 h
  simp

theorem lookup_of_notMem (h : loc ∉ table.map Prod.fst) : table.lookup loc = none := by
  rw [List.lookup_eq_none_iff]
  intro e he
  have hne : loc ≠ e.1 := fun heq => h (heq ▸ List.mem_map_of_mem he)
  simpa using hne

theorem lookup_of_mem (hn : (table.map Prod.fst).Nodup) {a : α} (h : (loc, a) ∈ table) :
    table.lookup loc = some a := by
  obtain ⟨before, after, rfl⟩ := List.append_of_mem h
  have hfree : loc ∉ before.map Prod.fst := by
    rw [List.map_append, List.map_cons, List.nodup_append] at hn
    exact fun hm => hn.2.2 loc hm loc (by simp) rfl
  rw [List.lookup_append, lookup_of_notMem hfree]
  simp

theorem lookup_map_snd (f : Location → α → α) :
    (table.map fun e => (e.1, f e.1 e.2)).lookup loc = (table.lookup loc).map (f loc) := by
  induction table with
  | nil => rfl
  | cons e table ih =>
    obtain ⟨place, a⟩ := e
    by_cases h : loc = place
    · subst h
      simp
    · have hne : (loc == place) = false := by simpa using h
      simp only [List.map_cons, List.lookup_cons, hne, ih]

end Lookup

variable {d : Disk}

@[simp] theorem node?_nil (d : Disk) : d.node? [] = some .directory := rfl

theorem node?_of_ne_nil (d : Disk) {loc : Location} (h : loc ≠ []) :
    d.node? loc = d.entries.lookup loc := by
  cases loc with
  | nil => exact absurd rfl h
  | cons name loc => rfl

theorem ne_nil_of_file {loc : Location} {content : Bytes} {mode : Nat}
    (h : d.node? loc = some (.file content mode)) : loc ≠ [] := by
  rintro rfl
  simp at h

theorem mem_places {loc : Location} {node : Node} (h : (loc, node) ∈ d.entries) : loc ∈ d.places :=
  List.mem_map_of_mem h

theorem mem_of_node? {loc : Location} (hne : loc ≠ []) {node : Node} (h : d.node? loc = some node) :
    (loc, node) ∈ d.entries :=
  mem_of_lookup (by rwa [← node?_of_ne_nil d hne])

theorem node?_of_notMem {loc : Location} (hne : loc ≠ []) (h : loc ∉ d.places) :
    d.node? loc = none := by
  rw [node?_of_ne_nil d hne, lookup_of_notMem h]

namespace WellFormed
variable (wf : d.WellFormed)
include wf

theorem node?_of_mem {loc : Location} {node : Node} (h : (loc, node) ∈ d.entries) :
    d.node? loc = some node := by
  rw [node?_of_ne_nil d (wf.named _ (mem_places h)).1, lookup_of_mem wf.nodup h]

theorem isName {loc : Location} {node : Node} (h : d.node? loc = some node) :
    ∀ name ∈ loc, IsName name := by
  by_cases hne : loc = []
  · simp [hne]
  · exact (wf.named _ (mem_places (mem_of_node? hne h))).2

theorem parent {loc : Location} {name : Bytes} {node : Node}
    (h : d.node? (loc ++ [name]) = some node) : d.node? loc = some .directory := by
  simpa using wf.nested _ (mem_places (mem_of_node? (by simp) h))

/-- The entries are known from the places and what is found there. -/
theorem entries_eq :
    d.entries = d.places.map fun loc => (loc, (d.node? loc).getD .directory) := by
  rw [places, List.map_map]
  conv_lhs => rw [← List.map_id d.entries]
  refine List.map_congr_left fun e he => ?_
  have hnode : d.node? e.1 = some e.2 := wf.node?_of_mem he
  simp [hnode]

end WellFormed

/-! ## Putting and removing -/

theorem set_of_mem {loc : Location} (h : loc ∈ d.places) (node : Node) :
    d.set loc node =
      { d with entries := d.entries.map fun e => (e.1, if e.1 = loc then node else e.2) } := by
  have hany : d.entries.any (·.1 == loc) = true := by simpa [places] using h
  simp only [set, hany, if_true, Disk.mk.injEq, and_true]
  refine List.map_congr_left fun e _ => ?_
  by_cases he : e.1 = loc
  · simp [he]
  · simp [he]

theorem set_of_notMem {loc : Location} (h : loc ∉ d.places) (node : Node) :
    d.set loc node = { d with entries := d.entries ++ [(loc, node)] } := by
  have hany : d.entries.any (·.1 == loc) = false := by
    rw [List.any_eq_false]
    intro e he heq
    exact h (List.mem_map.2 ⟨e, he, by simpa using heq⟩)
  simp [set, hany]

theorem node?_set {loc : Location} (h : loc ≠ []) (node : Node) (place : Location) :
    (d.set loc node).node? place = if place = loc then some node else d.node? place := by
  by_cases hp : place = []
  · subst hp
    rw [if_neg (Ne.symm h)]
    rfl
  rw [node?_of_ne_nil _ hp, node?_of_ne_nil _ hp]
  by_cases hm : loc ∈ d.places
  · rw [set_of_mem hm, lookup_map_snd fun place old => if place = loc then node else old]
    split_ifs with hloc
    · subst hloc
      obtain ⟨e, he, rfl⟩ := List.mem_map.1 hm
      have hsome : (d.entries.lookup e.1).isSome := List.lookup_isSome_iff.2 ⟨e, he, by simp⟩
      obtain ⟨old, hold⟩ := Option.isSome_iff_exists.1 hsome
      simp [hold]
    · simp
  · rw [set_of_notMem hm, List.lookup_append]
    split_ifs with hloc
    · subst hloc
      simp [lookup_of_notMem hm]
    · have hne : (place == loc) = false := by simpa using hloc
      simp [List.lookup_cons, hne]

theorem erase_set {loc : Location} (h : loc ∉ d.places) (node : Node) :
    (d.set loc node).erase loc = d := by
  rw [set_of_notMem h, erase, List.filter_append]
  have hold : d.entries.filter (fun e => e.1 != loc) = d.entries := by
    rw [List.filter_eq_self]
    intro e he
    have hne : e.1 ≠ loc := fun heq => h (heq ▸ List.mem_map_of_mem he)
    simpa using hne
  simp [hold]

theorem set_set {loc : Location} (h : loc ∉ d.places) (old new : Node) :
    (d.set loc old).set loc new = d.set loc new := by
  have hold : ∀ e ∈ d.entries, e.1 ≠ loc := fun e he heq => h (heq ▸ List.mem_map_of_mem he)
  rw [set_of_notMem h, set_of_notMem h, set_of_mem (by simp [places])]
  simp only [List.map_append, List.map_cons, List.map_nil, if_true, Disk.mk.injEq, and_true]
  congr 1
  conv_rhs => rw [← List.map_id d.entries]
  refine List.map_congr_left fun e he => ?_
  simp [hold e he]

@[simp] theorem home_set (d : Disk) (loc : Location) (node : Node) : (d.set loc node).home = d.home := by
  unfold set
  split_ifs <;> rfl

theorem mem_places_set {loc place : Location} (node : Node) :
    place ∈ (d.set loc node).places ↔ place = loc ∨ place ∈ d.places := by
  by_cases h : loc ∈ d.places
  · have hplaces : (d.set loc node).places = d.places := by
      rw [set_of_mem h]
      simp [places, Function.comp_def]
    rw [hplaces]
    exact ⟨.inr, fun hmem => hmem.elim (fun heq => heq ▸ h) id⟩
  · rw [set_of_notMem h]
    simp [places, or_comm]

/-- A file in a directory, under a proper name and in the place of no directory. -/
theorem WellFormed.set (wf : d.WellFormed) {loc : Location} {name : Bytes} (hname : IsName name)
    (hdir : d.node? loc = some .directory) (hplace : d.node? (loc ++ [name]) ≠ some .directory)
    (node : Node) : (d.set (loc ++ [name]) node).WellFormed := by
  have hkeep : ∀ {place}, d.node? place = some .directory →
      (d.set (loc ++ [name]) node).node? place = some .directory := by
    intro place hd
    rw [node?_set (by simp), if_neg, hd]
    rintro rfl
    exact hplace hd
  refine ⟨?_, fun place hmem => ?_, fun place hmem => ?_, ?_⟩
  · by_cases h : loc ++ [name] ∈ d.places
    · rw [set_of_mem h]
      simpa [places, Function.comp_def] using wf.nodup
    · rw [set_of_notMem h]
      have hfree : ∀ place n, (place, n) ∈ d.entries → ¬ place = loc ++ [name] :=
        fun place n he heq => h (heq ▸ mem_places he)
      simpa [places, List.nodup_append, eq_comm] using ⟨wf.nodup, hfree⟩
  · rcases (mem_places_set node).1 hmem with rfl | hmem
    · refine ⟨by simp, fun n hn => ?_⟩
      rcases List.mem_append.1 hn with hn | hn
      · exact wf.isName hdir n hn
      · obtain rfl : n = name := by simpa using hn
        exact hname
    · exact wf.named place hmem
  · rcases (mem_places_set node).1 hmem with rfl | hmem
    · rw [List.dropLast_concat]
      exact hkeep hdir
    · exact hkeep (wf.nested place hmem)
  · rw [home_set]
    exact hkeep wf.home

/-! ## Outlines -/

/-- A disk without the contents of its files. -/
def outline (d : Disk) : Disk := { d with entries := d.entries.map fun e => (e.1, e.2.outline) }

@[simp] theorem outline_home (d : Disk) : d.outline.home = d.home := rfl

@[simp] theorem node?_outline (d : Disk) (loc : Location) :
    d.outline.node? loc = (d.node? loc).map Node.outline := by
  by_cases h : loc = []
  · subst h
    rfl
  · rw [node?_of_ne_nil _ h, node?_of_ne_nil _ h]
    exact lookup_map_snd fun _ => Node.outline

@[simp] theorem places_outline (d : Disk) : d.outline.places = d.places := by
  simp [places, outline, Function.comp_def]

/-- Disks of one outline with the same nodes are the same. -/
theorem WellFormed.ext {d' : Disk} (wf : d.WellFormed) (wf' : d'.WellFormed)
    (h : d.outline = d'.outline) (hnode : ∀ loc, d.node? loc = d'.node? loc) : d = d' := by
  have hplaces : d.places = d'.places := by rw [← places_outline, h, places_outline]
  have hhome : d.home = d'.home := by rw [← outline_home d, h, outline_home]
  have hentries : d.entries = d'.entries := by
    rw [wf.entries_eq, wf'.entries_eq, hplaces]
    simp only [hnode]
  cases d
  cases d'
  simp_all

theorem locate_outline (d : Disk) (follow : Bool) (links : Nat) (loc : Location)
    (todo : List Component) : d.outline.locate follow links loc todo = d.locate follow links loc todo := by
  fun_induction locate d follow links loc todo with
  | case1 links loc => simp [locate]
  | case2 links loc rest hdir ih => simp [locate, hdir, ih, Node.outline]
  | case3 links loc rest hdir ih => simp [locate, hdir, ih, Node.outline]
  | case4 links loc rest hdir ih => simp [locate, hdir, ih, Node.outline]
  | case5 links loc rest hdir name hlong => simp [locate, hdir, hlong, Node.outline]
  | case6 links loc rest hdir name hshort hnone => simp [locate, hdir, hshort, hnone, Node.outline]
  | case7 links loc rest hdir name hshort target hlink hstop =>
    simp [locate, hdir, hshort, hlink, hstop, Node.outline]
  | case8 loc rest hdir name hshort target hlink hgo =>
    simp [locate, hdir, hshort, hlink, hgo, Node.outline]
  | case9 loc rest hdir name hshort target hlink hgo links ih =>
    simp [locate, hdir, hshort, hlink, hgo, ih, Node.outline]
  | case10 links loc rest hdir name hshort node hnode hsome ih =>
    cases node with
    | link target => exact absurd rfl (hnode target)
    | file content mode => simp [locate, hdir, hshort, hsome, ih, Node.outline]
    | directory => simp [locate, hdir, hshort, hsome, ih, Node.outline]
  | case11 links loc step rest hdir =>
    rw [locate.eq_def, node?_outline]
    cases hnode : d.node? loc with
    | none => rfl
    | some node =>
      cases node with
      | directory => exact absurd hnode hdir
      | file content mode => rfl
      | link target => rfl

@[simp] theorem reach_outline (d : Disk) (follow : Bool) (p : Path) :
    d.outline.reach follow p = d.reach follow p := by
  simp only [reach, locate_outline, outline_home]

@[simp] theorem resolve_outline (d : Disk) (follow : Bool) (p : Path) :
    d.outline.resolve follow p = d.resolve follow p := by
  simp only [resolve, reach_outline]

@[simp] theorem canonical_outline (d : Disk) (p : Path) : d.outline.canonical p = d.canonical p := by
  simp only [canonical, reach_outline]

theorem map_fst_children_outline (d : Disk) (loc : Location) :
    (d.outline.children loc).map Prod.fst = (d.children loc).map Prod.fst := by
  simp only [children, outline, List.filterMap_map, List.map_filterMap]
  refine List.filterMap_congr fun e _ => ?_
  dsimp only [Function.comp_apply]
  split_ifs
  · rw [Option.map_map, Option.map_map]
    rfl
  · rfl

theorem wellFormed_outline : d.outline.WellFormed ↔ d.WellFormed := by
  have hdir : ∀ loc, d.outline.node? loc = some .directory ↔ d.node? loc = some .directory := by
    intro loc
    rw [node?_outline, Option.map_eq_some_iff]
    constructor
    · rintro ⟨node, hnode, hdir⟩
      rw [hnode, Node.outline_eq_directory.1 hdir]
    · exact fun h => ⟨_, h, rfl⟩
  rw [wellFormed_iff, wellFormed_iff]
  simp only [hdir, places_outline, outline_home]

theorem WellFormed.of_outline {d' : Disk} (wf : d.WellFormed) (h : d'.outline = d.outline) :
    d'.WellFormed :=
  wellFormed_outline.1 (h ▸ wellFormed_outline.2 wf)

/-! ## Where a path leads -/

/-- A walk from `loc` along `todo` that ends at `dest` and follows at most `links` links. -/
inductive Leads (d : Disk) (follow : Bool) : Nat → Location → List Component → Location → Prop
  | done {links : Nat} {loc : Location} : Leads d follow links loc [] loc
  | root {links : Nat} {loc dest : Location} {rest : List Component}
      (hdir : d.node? loc = some .directory) (h : Leads d follow links [] rest dest) :
      Leads d follow links loc (.root :: rest) dest
  | here {links : Nat} {loc dest : Location} {rest : List Component}
      (hdir : d.node? loc = some .directory) (h : Leads d follow links loc rest dest) :
      Leads d follow links loc (.here :: rest) dest
  | up {links : Nat} {loc dest : Location} {rest : List Component}
      (hdir : d.node? loc = some .directory) (h : Leads d follow links loc.dropLast rest dest) :
      Leads d follow links loc (.up :: rest) dest
  | stop {links : Nat} {loc : Location} {name : Bytes} {target : Path}
      (hdir : d.node? loc = some .directory) (hshort : name.length ≤ nameLimit)
      (hlink : d.node? (loc ++ [name]) = some (.link target)) (hstop : follow = false) :
      Leads d follow links loc [.name name] (loc ++ [name])
  | link {links : Nat} {loc dest : Location} {rest : List Component} {name : Bytes} {target : Path}
      (hdir : d.node? loc = some .directory) (hshort : name.length ≤ nameLimit)
      (hlink : d.node? (loc ++ [name]) = some (.link target)) (hgo : follow = true ∨ rest ≠ [])
      (h : Leads d follow links loc (steps target ++ rest) dest) :
      Leads d follow (links + 1) loc (.name name :: rest) dest
  | name {links : Nat} {loc dest : Location} {rest : List Component} {name : Bytes} {node : Node}
      (hdir : d.node? loc = some .directory) (hshort : name.length ≤ nameLimit)
      (hnode : d.node? (loc ++ [name]) = some node) (hplain : ∀ target, node ≠ .link target)
      (h : Leads d follow links (loc ++ [name]) rest dest) :
      Leads d follow links loc (.name name :: rest) dest

theorem locate_eq_ok {follow : Bool} {links : Nat} {loc dest : Location} {todo : List Component} :
    d.locate follow links loc todo = .ok dest ↔ d.Leads follow links loc todo dest := by
  constructor
  · intro h
    fun_induction locate d follow links loc todo with
    | case1 links loc =>
      obtain rfl : loc = dest := by simpa using h
      exact .done
    | case2 links loc rest hdir ih => exact .root hdir (ih h)
    | case3 links loc rest hdir ih => exact .here hdir (ih h)
    | case4 links loc rest hdir ih => exact .up hdir (ih h)
    | case5 => simp at h
    | case6 => simp at h
    | case7 links loc rest hdir name hshort target hlink hstop =>
      obtain rfl : loc ++ [name] = dest := by simpa using h
      obtain ⟨rfl, hfollow⟩ : rest = [] ∧ follow = false := by simpa using hstop
      exact .stop hdir (not_lt.1 hshort) hlink hfollow
    | case8 => simp at h
    | case9 loc rest hdir name hshort target hlink hgo links ih =>
      refine .link hdir (not_lt.1 hshort) hlink ?_ (ih h)
      by_contra hno
      simp only [not_or, not_not, Bool.not_eq_true] at hno
      simp [hno] at hgo
    | case10 links loc rest hdir name hshort node hplain hnode ih =>
      exact .name hdir (not_lt.1 hshort) hnode hplain (ih h)
    | case11 => simp at h
  · intro h
    induction h with
    | done => simp [locate]
    | root hdir _ ih => simp [locate, hdir, ih]
    | here hdir _ ih => simp [locate, hdir, ih]
    | up hdir _ ih => simp [locate, hdir, ih]
    | stop hdir hshort hlink hstop => simp [locate, hdir, not_lt.2 hshort, hlink, hstop]
    | @link links loc dest rest name target hdir hshort hlink hgo _ ih =>
      have hno : ¬ (rest.isEmpty && !follow) = true := by
        rcases hgo with rfl | hne
        · simp
        · simp [hne]
      simp [locate, hdir, not_lt.2 hshort, hlink, hno, ih]
    | @name links loc dest rest name node hdir hshort hnode hplain _ ih =>
      cases node with
      | link target => exact absurd rfl (hplain target)
      | file content mode => simp [locate, hdir, not_lt.2 hshort, hnode, ih]
      | directory => simp [locate, hdir, not_lt.2 hshort, hnode, ih]

namespace Leads

/-- One name further. What is there is not looked through. -/
theorem concat_name {follow : Bool} {links : Nat} {loc dest : Location} {todo : List Component}
    (h : d.Leads true links loc todo dest) (hdest : d.node? dest = some .directory) {name : Bytes}
    (hname : name.length ≤ nameLimit) {node : Node} (hnode : d.node? (dest ++ [name]) = some node)
    (hplain : ∀ target, node = .link target → follow = false) :
    d.Leads follow links loc (todo ++ [.name name]) (dest ++ [name]) := by
  induction h with
  | done =>
    by_cases hlink : ∃ target, node = .link target
    · obtain ⟨target, rfl⟩ := hlink
      exact .stop hdest hname hnode (hplain target rfl)
    · exact .name hdest hname hnode (fun target heq => hlink ⟨target, heq⟩) .done
  | root hdir _ ih => exact .root hdir (ih hdest hnode)
  | here hdir _ ih => exact .here hdir (ih hdest hnode)
  | up hdir _ ih => exact .up hdir (ih hdest hnode)
  | stop _ _ _ hstop => exact absurd hstop (by simp)
  | link hdir hshort hlink _ _ ih =>
    refine .link hdir hshort hlink (.inr (by simp)) ?_
    simpa using ih hdest hnode
  | name hdir hshort hnode' hplain' _ ih => exact .name hdir hshort hnode' hplain' (ih hdest hnode)

theorem cons_of_concat {todo rest : List Component} {last step : Component}
    (h : todo ++ [last] = step :: rest) :
    (∃ before, todo = step :: before ∧ before ++ [last] = rest) ∨ (todo = [] ∧ last = step ∧ rest = []) := by
  cases todo with
  | nil => simp_all
  | cons c todo => simp_all

/-- A step that stays where it is can be left out. -/
theorem of_concat_here {follow : Bool} {links : Nat} {loc dest : Location} {todo : List Component}
    (h : d.Leads follow links loc (todo ++ [.here]) dest) : d.Leads true links loc todo dest := by
  generalize hall : todo ++ [Component.here] = all at h
  induction h generalizing todo with
  | done => simp at hall
  | root hdir _ ih =>
    obtain ⟨rest, rfl, hrest⟩ | ⟨-, hbad, -⟩ := cons_of_concat hall
    · exact .root hdir (ih hrest)
    · simp at hbad
  | here hdir h ih =>
    obtain ⟨rest, rfl, hrest⟩ | ⟨rfl, -, rfl⟩ := cons_of_concat hall
    · exact .here hdir (ih hrest)
    · cases h
      exact .done
  | up hdir _ ih =>
    obtain ⟨rest, rfl, hrest⟩ | ⟨-, hbad, -⟩ := cons_of_concat hall
    · exact .up hdir (ih hrest)
    · simp at hbad
  | stop =>
    obtain ⟨rest, rfl, hrest⟩ | ⟨-, hbad, -⟩ := cons_of_concat hall
    · simp at hrest
    · simp at hbad
  | link hdir hshort hlink _ _ ih =>
    obtain ⟨rest, rfl, hrest⟩ | ⟨-, hbad, -⟩ := cons_of_concat hall
    · exact .link hdir hshort hlink (.inl rfl) (ih (by rw [List.append_assoc, hrest]))
    · simp at hbad
  | name hdir hshort hnode hplain _ ih =>
    obtain ⟨rest, rfl, hrest⟩ | ⟨-, hbad, -⟩ := cons_of_concat hall
    · exact .name hdir hshort hnode hplain (ih hrest)
    · simp at hbad

end Leads

theorem reach_eq_ok {follow : Bool} {p : Path} {loc : Location} :
    d.reach follow p = .ok loc ↔
      nul ∉ p.bytes ∧ p.isEmpty = false ∧ d.Leads follow linkLimit d.home (steps p) loc := by
  by_cases hnul : nul ∈ p.bytes
  · simp [reach, hnul]
  · by_cases hempty : p.isEmpty
    · simp [reach, hnul, hempty]
    · simp [reach, hnul, hempty, locate_eq_ok]

theorem reach_of_resolve {follow : Bool} {p : Path} {loc : Location}
    (h : d.resolve follow p = .ok loc) : d.reach follow p = .ok loc := by
  rw [resolve] at h
  split_ifs at h
  exact h

theorem resolve_of_reach {follow : Bool} {p : Path} (hshort : p.bytes.length < pathLimit) :
    d.resolve follow p = d.reach follow p := by
  simp [resolve, not_le.2 hshort]

/-- An entry of a directory is found under its name behind the path of the directory. -/
theorem reach_join {p : Path} {loc : Location} (h : d.reach true p = .ok loc)
    (hdir : d.node? loc = some .directory) {name : Bytes} (hname : IsName name) {node : Node}
    (hnode : d.node? (loc ++ [name]) = some node) (hplain : ∀ target, node ≠ .link target) :
    d.reach true (p.join ⟨name⟩) = .ok (loc ++ [name]) := by
  obtain ⟨hnul, hempty, hleads⟩ := reach_eq_ok.1 h
  have hlast : ∀ target, node = .link target → true = false := fun target ht => absurd ht (hplain target)
  refine reach_eq_ok.2 ⟨?_, ?_, ?_⟩
  · intro hmem
    rcases Path.mem_join hname hmem with hp | hslash | hn
    · exact hnul hp
    · exact absurd hslash (by decide)
    · exact hname.no_nul hn
  · exact Path.join_not_isEmpty p hname.isPart
  · rcases Path.steps_join hempty hname with hsteps | ⟨before, hbefore, hsteps⟩
    · rw [hsteps]
      exact hleads.concat_name hdir hname.short hnode hlast
    · rw [hsteps]
      rw [hbefore] at hleads
      exact hleads.of_concat_here.concat_name hdir hname.short hnode hlast

theorem mem_absolute {loc : Location} {b : UInt8} (h : b ∈ (absolute loc).bytes) :
    b = slash ∨ ∃ name ∈ loc, b ∈ name := by
  rcases List.mem_cons.1 h with rfl | h
  · exact .inl rfl
  · induction loc with
    | nil => simp [Bytes.join] at h
    | cons name loc ih =>
      by_cases hloc : loc = []
      · subst hloc
        exact .inr ⟨name, by simp, by simpa [Bytes.join] using h⟩
      · rw [Bytes.join_cons _ _ hloc] at h
        simp only [List.mem_append, List.mem_cons] at h
        rcases h with h | rfl | h
        · exact .inr ⟨name, by simp, h⟩
        · exact .inl rfl
        · rcases ih (List.mem_cons_of_mem _ h) h with rfl | ⟨n, hn, hb⟩
          · exact .inl rfl
          · exact .inr ⟨n, List.mem_cons_of_mem _ hn, hb⟩

/-- Every location on the way is a directory. -/
def Rooted (d : Disk) (loc : Location) : Prop :=
  ∀ front name, front ++ [name] <+: loc → d.node? front = some .directory

theorem leads_names {follow : Bool} {links : Nat} (hhome : d.node? d.home = some .directory)
    {loc : Location} (hnames : ∀ name ∈ loc, IsName name) (hway : d.Rooted loc) {node : Node}
    (hnode : d.node? loc = some node) (hlast : ∀ target, node = .link target → follow = false) :
    d.Leads follow links d.home (.root :: loc.map Component.name) loc := by
  induction loc using List.reverseRecOn generalizing follow node with
  | nil => exact .root hhome .done
  | append_singleton loc name ih =>
    have hdir : d.node? loc = some .directory := hway loc name (List.prefix_refl _)
    have hfront : d.Leads true links d.home (.root :: loc.map Component.name) loc :=
      ih (fun n hn => hnames n (List.mem_append_left _ hn))
        (fun front n hp => hway front n (hp.trans (List.prefix_append _ _))) hdir (by simp)
    rw [List.map_append, ← List.cons_append]
    exact hfront.concat_name hdir (hnames name (by simp)).short hnode hlast

/-- The path from the top leads back to its location. -/
theorem reach_absolute {follow : Bool} (hhome : d.node? d.home = some .directory) {loc : Location}
    (hnames : ∀ name ∈ loc, IsName name) (hway : d.Rooted loc) {node : Node}
    (hnode : d.node? loc = some node) (hlast : ∀ target, node = .link target → follow = false) :
    d.reach follow (absolute loc) = .ok loc := by
  refine reach_eq_ok.2 ⟨?_, by simp [absolute, Path.isEmpty], ?_⟩
  · intro hnul
    rcases mem_absolute hnul with hslash | ⟨name, hname, hmem⟩
    · exact absurd hslash (by decide)
    · exact (hnames name hname).no_nul hmem
  · by_cases hne : loc = []
    · subst hne
      exact .root hhome (.here rfl .done)
    · rw [Path.steps_absolute hne hnames]
      exact leads_names hhome hnames hway hnode hlast

theorem WellFormed.rooted (wf : d.WellFormed) {loc : Location} {node : Node}
    (h : d.node? loc = some node) : d.Rooted loc := by
  intro front name hp
  induction loc using List.reverseRecOn generalizing node with
  | nil => simp at hp
  | append_singleton loc last ih =>
    rcases List.prefix_concat_iff.1 hp with heq | hp
    · obtain ⟨rfl, -⟩ := List.append_inj' heq rfl
      exact wf.parent h
    · exact ih (wf.parent h) hp

/-! ## Reading -/

theorem stat_eq_ok {p : Path} {node : Node} :
    d.stat p = .ok node ↔ ∃ loc, d.resolve true p = .ok loc ∧ d.node? loc = some node := by
  rw [stat]
  cases hr : d.resolve true p with
  | error fault => simp [bind, Except.bind]
  | ok loc =>
    cases hn : d.node? loc <;>
      simp [bind, Except.bind, hn, pure, Except.pure, throw, throwThe, MonadExceptOf.throw]

theorem read_eq_ok {p : Path} {content : Bytes} :
    d.read p = .ok content ↔
      ∃ loc mode, d.resolve true p = .ok loc ∧ d.node? loc = some (.file content mode) := by
  rw [read]
  constructor
  · intro h
    split at h
    · next c mode hstat =>
      obtain ⟨loc, hr, hn⟩ := stat_eq_ok.1 hstat
      obtain rfl : c = content := by simpa using h
      exact ⟨loc, mode, hr, hn⟩
    · simp at h
    · simp at h
  · rintro ⟨loc, mode, hr, hn⟩
    rw [stat_eq_ok.2 ⟨loc, hr, hn⟩]

end Disk
end Uncomment
