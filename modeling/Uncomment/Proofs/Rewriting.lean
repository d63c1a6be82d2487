import Mathlib
import Uncomment.Disk.Replace
import Uncomment.Proofs.Disks

/-! Replacing the content of a file. The temporary file has a name of its own, so that removing it
gives the old disk back, and renaming it gives the old disk with new content in one file. Whether
that goes through depends on the outline of the disk alone. -/
namespace Uncomment
open Ascii

theorem Bytes.ofText_injective : Function.Injective Bytes.ofText := by
  intro s t h
  have hbytes : s.toList.utf8Encode = t.toList.utf8Encode := congrArg List.toByteArray h
  rwa [String.utf8Encode_toList, String.utf8Encode_toList, String.toByteArray_inj] at hbytes

theorem Decimal.ofDigitChars_padded (width n : Nat) : Nat.ofDigitChars 10 (padded width n) 0 = n := by
  simp [padded, Nat.ofDigitChars_append, Nat.ofDigitChars_replicate_zero, Nat.ofDigitChars_toDigits]

namespace Disk
variable {d : Disk}

/-! ## Temporary files -/

theorem temporaryName_injective : Function.Injective temporaryName := by
  intro m n h
  have htext := congrArg String.toList (Bytes.ofText_injective h)
  have hdigits : Decimal.padded 6 m = Decimal.padded 6 n := by simpa using htext
  rw [← Decimal.ofDigitChars_padded 6 m, hdigits, Decimal.ofDigitChars_padded]

theorem mem_children {loc : Location} {name : Bytes} {node : Node} :
    (name, node) ∈ d.children loc ↔ (loc ++ [name], node) ∈ d.entries := by
  rw [children, List.mem_filterMap]
  constructor
  · rintro ⟨⟨place, n⟩, he, hplace⟩
    dsimp only at hplace
    split_ifs at hplace with hloc
    obtain ⟨last, hlast, heq⟩ := Option.map_eq_some_iff.1 hplace
    obtain ⟨rfl, rfl⟩ := Prod.mk.inj heq
    rwa [← beq_iff_eq.1 hloc, List.dropLast_append_getLast? _ hlast]
  · intro he
    exact ⟨_, he, by simp⟩

/-- Among more names than there are entries one is free. -/
theorem freshName_notMem (d : Disk) (directory : Location) :
    freshName d directory ∉ (d.children directory).map Prod.fst := by
  rw [freshName]
  generalize (d.children directory).map Prod.fst = used
  cases hfind : ((List.range (used.length + 1)).map temporaryName).find? (!used.contains ·) with
  | some name =>
    have hfree := List.find?_some hfind
    simpa using hfree
  | none =>
    have hall : (List.range (used.length + 1)).map temporaryName ⊆ used := by
      intro name hname
      simpa using List.find?_eq_none.1 hfind name hname
    have hnodup : ((List.range (used.length + 1)).map temporaryName).Nodup :=
      List.nodup_range.map temporaryName_injective
    have hlength := (List.subperm_of_subset hnodup hall).length_le
    simp only [List.length_map, List.length_range] at hlength
    omega

theorem fresh_notMem_places (d : Disk) (directory : Location) :
    directory ++ [freshName d directory] ∉ d.places := by
  intro h
  obtain ⟨⟨loc, node⟩, he, hloc⟩ := List.mem_map.1 h
  obtain rfl : loc = directory ++ [freshName d directory] := hloc
  exact freshName_notMem d directory (List.mem_map.2 ⟨_, mem_children.2 he, rfl⟩)

theorem createTemporary_eq_ok {parent : Path} {temporary : Location} {fresh : Disk}
    (h : d.createTemporary parent = .ok (temporary, fresh)) :
    temporary ≠ [] ∧ temporary ∉ d.places ∧ fresh = d.set temporary (.file [] 0o600) := by
  rw [createTemporary] at h
  cases hr : d.resolve true parent with
  | error fault => simp [hr, bind, Except.bind] at h
  | ok directory =>
    simp only [hr, bind, Except.bind] at h
    split at h
    · split_ifs at h
      obtain ⟨rfl, rfl⟩ : directory ++ [freshName d directory] = temporary ∧ _ = fresh := by
        simpa [pure, Except.pure] using h
      exact ⟨by simp, fresh_notMem_places d directory, rfl⟩
    · cases h

/-- A step that was not refused. -/
theorem of_permit [Device] {α : Type} {step : FileStep} {p : Path} {e : Except IoFault α} {a : α}
    (h : (Device.permit step p >>= fun _ => e) = .ok a) : e = .ok a := by
  cases hstep : Device.permit step p with
  | error fault => simp [hstep, bind, Except.bind] at h
  | ok => simpa [hstep, bind, Except.bind] using h

theorem setContent_set {loc : Location} (hne : loc ≠ []) (h : loc ∉ d.places) (old new : Bytes)
    (mode : Nat) :
    (d.set loc (.file old mode)).setContent loc new = d.set loc (.file new mode) := by
  rw [setContent, node?_set hne, if_pos rfl]
  exact set_set h _ _

theorem setMode_set {loc : Location} (hne : loc ≠ []) (h : loc ∉ d.places) (content : Bytes)
    (old new : Nat) :
    (d.set loc (.file content old)).setMode loc new = d.set loc (.file content new) := by
  rw [setMode, node?_set hne, if_pos rfl]
  exact set_set h _ _

/-! ## The write as a whole -/

section Device
variable [Device]

/-- Whether the steps are let through that come after the temporary file is there. -/
def permits (p : Path) (hasMode : Bool) : Except IoFault Unit := do
  Device.permit .write p
  Device.permit .flush p
  (if hasMode then Device.permit .permissions p else .ok ())
  Device.permit .rename p

/-- Whether new content can be given to the file that a path leads to. -/
def admission (d : Disk) (p : Path) : Except IoFault Unit :=
  match d.canonical p with
  | .error fault => .error fault
  | .ok target => do
    Device.permit .create p
    (d.createTemporary target.directory).map fun _ => ()
    permits p true

omit [Device] in
theorem createTemporary_outline (d : Disk) (parent : Path) :
    ((d.outline.createTemporary parent).map fun _ => ()) =
      (d.createTemporary parent).map fun _ => () := by
  have hfresh : ∀ loc, freshName d.outline loc = freshName d loc := by
    intro loc
    simp only [freshName, map_fst_children_outline]
  simp only [createTemporary, resolve_outline]
  cases d.resolve true parent with
  | error fault => rfl
  | ok directory =>
    simp only [bind, Except.bind, node?_outline, hfresh, outline_home]
    cases d.node? directory with
    | none => rfl
    | some node =>
      cases node with
      | file content mode => rfl
      | link place => rfl
      | directory =>
        simp only [Option.map_some, Node.outline]
        split_ifs <;> rfl

theorem admission_outline (d : Disk) (p : Path) : d.outline.admission p = d.admission p := by
  simp only [admission, canonical_outline, createTemporary_outline]

end Device

theorem canonical_of_reach {p : Path} {loc : Location} (h : d.reach true p = .ok loc) :
    d.canonical p = if pathLimit ≤ (absolute loc).bytes.length then .error .nameTooLong
      else .ok (absolute loc) := by
  rw [canonical, h]
  rfl

theorem canonical_eq_ok {p target : Path} (h : d.canonical p = .ok target) :
    ∃ loc, d.reach true p = .ok loc ∧ target = absolute loc ∧ target.bytes.length < pathLimit := by
  cases hr : d.reach true p with
  | error fault => simp [canonical, hr, bind, Except.bind] at h
  | ok loc =>
    rw [canonical_of_reach hr] at h
    split_ifs at h with hlong
    obtain rfl : absolute loc = target := by simpa using h
    exact ⟨loc, rfl, rfl, not_le.1 hlong⟩

/-- A name can only be missing where the path leads to nothing. -/
theorem writeTarget_of_reach {p : Path} {loc : Location} (h : d.reach true p = .ok loc) :
    d.writeTarget p = d.canonical p := by
  rw [writeTarget, canonical_of_reach h]
  split_ifs <;> rfl

theorem rename_set {temporary : Location} (hne : temporary ≠ []) (hfree : temporary ∉ d.places)
    (node : Node) (target : Path) :
    (d.set temporary node).rename temporary target =
      ((d.set temporary node).destination target).map (d.set · node) := by
  rw [rename, node?_set hne, if_pos rfl, erase_set hfree]
  rfl

/-- The permissions that new content gets: those of what the target names, or those of a temporary
file. -/
def modeFor (d : Disk) (target : Path) : Nat :=
  ((d.stat target).toOption.map Node.mode).getD 0o600

section Device
variable [Device]

/-- What becomes of the temporary file: it is renamed with the content and its permissions, unless a
step is refused. -/
theorem install_set {temporary : Location} (hne : temporary ≠ []) (hfree : temporary ∉ d.places)
    (mode? : Option Nat) (p target : Path) (content : Bytes) :
    (d.set temporary (.file [] 0o600)).install temporary mode? p target content = do
      permits p mode?.isSome
      let loc ← (d.set temporary (.file content (mode?.getD 0o600))).destination target
      return d.set loc (.file content (mode?.getD 0o600)) := by
  rw [install, permits, setContent_set hne hfree]
  cases Device.permit .write p with
  | error fault => rfl
  | ok =>
    cases Device.permit .flush p with
    | error fault => rfl
    | ok =>
      cases mode? with
      | none =>
        cases Device.permit .rename p with
        | error fault => rfl
        | ok => exact rename_set hne hfree _ target
      | some mode =>
        rw [passMode, setMode_set hne hfree]
        cases Device.permit .permissions p with
        | error fault => rfl
        | ok =>
          cases Device.permit .rename p with
          | error fault => rfl
          | ok => exact rename_set hne hfree _ target

/-- The temporary file is gone in the end, whether or not the write went through. -/
theorem replace_eq (d : Disk) (p : Path) (content : Bytes) :
    d.replace p content =
      match d.writeTarget p with
      | .error fault => (.error fault, d)
      | .ok target =>
        match Device.permit .create p >>= fun _ => d.createTemporary target.directory with
        | .error fault => (.error fault, d)
        | .ok (temporary, _) =>
          match permits p (d.stat target).isOk >>= fun _ =>
              (d.set temporary (.file content (d.modeFor target))).destination target with
          | .error fault => (.error fault, d)
          | .ok loc => (.ok (), d.set loc (.file content (d.modeFor target))) := by
  rw [replace]
  cases d.writeTarget p with
  | error fault => rfl
  | ok target =>
    have hmode : ((d.stat target).toOption.map Node.mode).isSome = (d.stat target).isOk := by
      cases d.stat target <;> rfl
    dsimp only
    cases hcreate : Device.permit .create p >>= fun _ => d.createTemporary target.directory with
    | error fault => rfl
    | ok created =>
      obtain ⟨temporary, fresh⟩ := created
      obtain ⟨hne, hfree, rfl⟩ := createTemporary_eq_ok (of_permit hcreate)
      dsimp only
      rw [install_set hne hfree, hmode, erase_set hfree, ← modeFor]
      cases permits p (d.stat target).isOk with
      | error fault => rfl
      | ok => cases (d.set temporary (.file content (d.modeFor target))).destination target <;> rfl

end Device

/-- What stands beside a temporary file is found as before. -/
theorem destination_set (wf : d.WellFormed) {loc : Location} {old : Node}
    (hold : d.node? loc = some old) (hplain : ∀ target, old ≠ .link target)
    (hshort : (absolute loc).bytes.length < pathLimit)
    {temporary : Location} (hne : temporary ≠ []) (hfree : temporary ∉ d.places) (node : Node) :
    (d.set temporary node).destination (absolute loc) =
      if old.isDirectory then .error .isDirectory else .ok loc := by
  have hnone : d.node? temporary = none := node?_of_notMem hne hfree
  have hkeep : ∀ {place : Location} {n : Node}, d.node? place = some n →
      (d.set temporary node).node? place = some n := by
    intro place n hn
    rw [node?_set hne, if_neg, hn]
    rintro rfl
    simp [hnone] at hn
  have hreach : (d.set temporary node).reach false (absolute loc) = .ok loc :=
    reach_absolute (by rw [home_set, hkeep wf.home]) (wf.isName hold)
      (fun front name hp => hkeep (wf.rooted hold front name hp)) (hkeep hold) (by simp)
  rw [destination, resolve_of_reach hshort, hreach]
  dsimp only
  rw [hkeep hold]
  cases old with
  | file content mode => rfl
  | link target => exact absurd rfl (hplain target)
  | directory => rfl

theorem stat_absolute (wf : d.WellFormed) {loc : Location} {node : Node}
    (hnode : d.node? loc = some node) (hplain : ∀ target, node ≠ .link target)
    (hshort : (absolute loc).bytes.length < pathLimit) : d.stat (absolute loc) = .ok node :=
  stat_eq_ok.2 ⟨loc, by rw [resolve_of_reach hshort, reach_absolute wf.home (wf.isName hnode)
    (wf.rooted hnode) hnode fun target ht => absurd ht (hplain target)], hnode⟩

/-- A write to a file goes through as a whole or leaves the disk as it is. -/
theorem replace_file [Device] (wf : d.WellFormed) {p : Path} {loc : Location} {old : Bytes}
    {mode : Nat} (hreach : d.reach true p = .ok loc) (hfile : d.node? loc = some (.file old mode))
    (content : Bytes) :
    (∃ fault, d.admission p = .error fault ∧ d.replace p content = (.error fault, d)) ∨
      (d.admission p = .ok () ∧ d.replace p content = (.ok (), d.set loc (.file content mode))) := by
  rw [replace_eq, admission, writeTarget_of_reach hreach]
  cases hcanonical : d.canonical p with
  | error fault => exact .inl ⟨fault, rfl, rfl⟩
  | ok target =>
    obtain ⟨place, hplace, rfl, hshort⟩ := canonical_eq_ok hcanonical
    obtain rfl : place = loc := by simpa [hreach] using hplace.symm
    have hstat := stat_absolute wf hfile (by simp) hshort
    have hmode : d.modeFor (absolute place) = mode := by
      rw [modeFor, hstat]
      rfl
    dsimp only
    cases hcreate : Device.permit .create p with
    | error fault => exact .inl ⟨fault, rfl, rfl⟩
    | ok =>
      cases htemporary : d.createTemporary (absolute place).directory with
      | error fault => exact .inl ⟨fault, rfl, rfl⟩
      | ok created =>
        obtain ⟨temporary, fresh⟩ := created
        obtain ⟨hne, hfree, -⟩ := createTemporary_eq_ok htemporary
        have hdestination :=
          destination_set wf hfile (by simp) hshort hne hfree (.file content mode)
        have hok : (Except.ok (.file old mode) : Except IoFault Node).isOk = true := rfl
        rw [hstat, hmode, hok]
        cases permits p true with
        | error fault => exact .inl ⟨fault, rfl, rfl⟩
        | ok =>
          refine .inr ⟨rfl, ?_⟩
          simp only [bind, Except.bind, hdestination]
          rfl

/-- New content in a file leaves the outline as it is. -/
theorem outline_set_file (wf : d.WellFormed) {loc : Location} {old : Bytes} {mode : Nat}
    (hfile : d.node? loc = some (.file old mode)) (content : Bytes) :
    (d.set loc (.file content mode)).outline = d.outline := by
  rw [set_of_mem (mem_places (mem_of_node? (ne_nil_of_file hfile) hfile)), outline, outline, Disk.mk.injEq]
  refine ⟨?_, rfl⟩
  rw [List.map_map]
  refine List.map_congr_left fun e he => ?_
  by_cases hloc : e.1 = loc
  · have hnode : some e.2 = some (.file old mode) := by
      rw [← hfile, ← hloc]
      exact (wf.node?_of_mem he).symm
    simp [hloc, Option.some.inj hnode, Node.outline]
  · simp [hloc]

end Disk
end Uncomment
