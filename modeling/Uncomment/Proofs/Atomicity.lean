import Mathlib
import Uncomment.Proofs.Components
import Uncomment.Proofs.Files
import Uncomment.Proofs.Walks

/-! A write as a whole. It fails and leaves the disk as it is, or it puts the content in one place: the
file that the path leads to, a free name in a directory, or the place of a link that leads nowhere. -/
namespace Uncomment
open Ascii

namespace Path

/-- A name that a path spells is a proper one if it is not too long. -/
theorem isName_of_mem_steps {p : Path} {name : Bytes} (h : .name name ∈ Disk.steps p)
    (hnul : nul ∉ p.bytes) (hshort : name.length ≤ Disk.nameLimit) : IsName name := by
  have hlead : Component.name name ∉ p.lead.toList := by
    unfold lead
    split
    · simp
    · split_ifs <;> simp
  obtain ⟨part, hpart, hname⟩ := List.mem_map.1 ((List.mem_append.1 h).resolve_left hlead)
  split_ifs at hname with hfiller
  unfold partComponent at hname
  split_ifs at hname with hup
  obtain rfl : part = name := by simpa using hname
  have hne : part ≠ [] ∧ part ≠ [dot] := by simpa [isFiller] using hfiller
  refine ⟨hne.1, hne.2, by simpa using hup, no_slash_of_mem_split hpart, fun hmem => ?_, hshort⟩
  have hin := mem_of_mem_split hpart hmem
  split_ifs at hin
  · exact hnul (List.mem_of_mem_drop hin)
  · exact hnul hin

end Path

namespace Disk
variable {d : Disk} {p : Path} {loc : Location}

/-! ## What is missing -/

theorem locate_missing {follow : Bool} {links : Nat} {todo : List Component} {fault : IoFault}
    (h : d.locate follow links loc todo = .error fault) (hfault : fault.isNotFound = true) :
    fault = .noEntry := by
  fun_induction locate d follow links loc todo
  case case1 | case7 => cases h
  case case2 ih | case3 ih | case4 ih | case9 ih | case10 ih => exact ih h
  case case6 => exact (Except.error.inj h).symm
  case case5 | case8 | case11 =>
    obtain rfl := Except.error.inj h
    cases hfault

theorem reach_missing {follow : Bool} {fault : IoFault} (h : d.reach follow p = .error fault)
    (hfault : fault.isNotFound = true) : fault = .noEntry := by
  unfold reach at h
  split_ifs at h
  · obtain rfl := Except.error.inj h
    cases hfault
  · exact (Except.error.inj h).symm
  · exact locate_missing h hfault

theorem resolve_missing {follow : Bool} {fault : IoFault} (h : d.resolve follow p = .error fault)
    (hfault : fault.isNotFound = true) : d.reach follow p = .error .noEntry := by
  unfold resolve at h
  split_ifs at h
  · obtain rfl := Except.error.inj h
    cases hfault
  · rw [h, reach_missing h hfault]

theorem canonical_missing {fault : IoFault} (h : d.canonical p = .error fault)
    (hfault : fault.isNotFound = true) : d.reach true p = .error .noEntry := by
  cases hreach : d.reach true p with
  | ok loc =>
    rw [canonical_of_reach hreach] at h
    split_ifs at h
    obtain rfl := Except.error.inj h
    cases hfault
  | error cause =>
    obtain rfl : cause = fault := by simpa [canonical, hreach, bind, Except.bind] using h
    rw [reach_missing hreach hfault]

/-- A path that is refused because an entry is missing was walked. -/
theorem locate_of_reach_missing {follow : Bool} (h : d.reach follow p = .error .noEntry)
    (hempty : p.isEmpty = false) :
    nul ∉ p.bytes ∧ d.locate follow linkLimit d.home (steps p) = .error .noEntry := by
  unfold reach at h
  simp only [hempty, Bool.false_eq_true, if_false] at h
  split_ifs at h with hnul
  · cases h
  · exact ⟨by simpa using hnul, h⟩

/-! ## The place of an entry -/

/-- The path ends with a name, and what comes before it leads to the directory of `loc`. -/
def Names (d : Disk) (p : Path) (loc : Location) : Prop :=
  d.Approaches linkLimit d.home (steps p) loc

theorem Names.not_isEmpty (h : d.Names p loc) : p.isEmpty = false := by
  obtain ⟨front, place, name, hsteps, -⟩ := h
  by_contra hno
  obtain rfl : p = ⟨[]⟩ := by
    cases p
    simpa [Path.isEmpty] using hno
  have hhere : steps ⟨[]⟩ = [.here] := by decide
  have hlast := congrArg List.getLast? (hhere.symm.trans hsteps)
  simp at hlast

theorem Names.reach (h : d.Names p loc) (hnul : nul ∉ p.bytes) {follow : Bool} {node : Node}
    (hnode : d.node? loc = some node) (hplain : ∀ target, node = .link target → follow = false) :
    d.reach follow p = .ok loc := by
  have hempty := h.not_isEmpty
  obtain ⟨front, place, name, hsteps, rfl, hfront, hplace, hshort⟩ := h
  refine reach_eq_ok.2 ⟨hnul, hempty, ?_⟩
  rw [hsteps]
  exact hfront.concat_name hplace hshort hnode hplain

theorem Names.reach_none (h : d.Names p loc) (hnul : nul ∉ p.bytes) (hnode : d.node? loc = none) :
    d.reach false p = .error .noEntry := by
  have hempty := h.not_isEmpty
  obtain ⟨front, place, name, hsteps, rfl, hfront, hplace, hshort⟩ := h
  have hlocate := hfront.locate_concat_name hplace name
  rw [if_neg (not_lt.2 hshort), hnode, ← hsteps] at hlocate
  simpa [Disk.reach, hnul, hempty] using hlocate

/-- A file that is renamed arrives at the place of an entry, and not in that of a directory. -/
theorem destination_eq_ok (hhome : d.node? d.home = some .directory)
    (hparent : ∀ place name, d.node? (place ++ [name]) = some .directory →
      d.node? place = some .directory) (h : d.destination p = .ok loc) :
    d.Names p loc ∧ d.node? loc ≠ some .directory := by
  unfold destination at h
  cases hresolve : d.resolve false p with
  | ok place =>
    rw [hresolve] at h
    dsimp only at h
    split at h
    · cases h
    · next hnode =>
      obtain rfl := Except.ok.inj h
      have hleads := (reach_eq_ok.1 (reach_of_resolve hresolve)).2.2
      exact ⟨hleads.approaches hparent hhome hnode, hnode⟩
  | error fault =>
    rw [hresolve] at h
    dsimp only at h
    split_ifs at h with hskip
    obtain ⟨hmissing, hempty⟩ : fault.isNotFound = true ∧ p.isEmpty = false := by simpa using hskip
    obtain ⟨-, hlocate⟩ := locate_of_reach_missing (resolve_missing hresolve hmissing) hempty
    split at h
    · next name before hreverse =>
      have hsteps : steps p = before.reverse ++ [.name name] := by
        rw [← List.reverse_reverse (steps p), hreverse, List.reverse_cons]
      cases hfront : d.locate true linkLimit d.home before.reverse with
      | error cause => simp [hfront, bind, Except.bind] at h
      | ok place =>
        simp only [hfront, bind, Except.bind] at h
        split at h
        · next hplace =>
          obtain rfl := Except.ok.inj h
          have hleads := locate_eq_ok.1 hfront
          rw [hsteps, hleads.locate_concat_name hplace] at hlocate
          split_ifs at hlocate with hlong hnode
          · cases hlocate
          · refine ⟨⟨_, place, name, hsteps, rfl, hleads, hplace, not_lt.1 hlong⟩, fun hdir => ?_⟩
            simp [hdir] at hnode
        · cases h
    · cases h

/-! ## The place of a write -/

/-- Where a write to `p` puts the content, and with which permissions: in the file that the path
leads to, under a name that nothing has, or in the place of a link whose target is missing. -/
inductive Spot (d : Disk) (p : Path) (loc : Location) : Nat → Prop
  | file {old : Bytes} {mode : Nat} (reach : d.reach true p = .ok loc)
      (node : d.node? loc = some (.file old mode)) : Spot d p loc mode
  | free (missing : ∀ follow, d.reach follow p = .error .noEntry) (node : d.node? loc = none) :
      Spot d p loc 0o600
  | dangling {target : Path} (missing : d.reach true p = .error .noEntry)
      (reach : d.reach false p = .ok loc) (node : d.node? loc = some (.link target)) :
      Spot d p loc 0o600

/-- The disk after a write to `p`: the content is in one place, the path leads there, and every other
place is as before. -/
structure Written (before after : Disk) (p : Path) (content : Bytes) (loc : Location)
    (mode : Nat) : Prop where
  spot : before.Spot p loc mode
  node : after.node? loc = some (.file content mode)
  others : ∀ place, place ≠ loc → after.node? place = before.node? place
  home : after.home = before.home
  wellFormed : after.WellFormed
  reach : after.reach true p = .ok loc

/-- What the last name of a path without a target stands for: nothing, or a link that no walk goes
through. -/
theorem Names.deadEnd (h : d.Names p loc) (hmissing : d.reach true p = .error .noEntry)
    (hdir : d.node? loc ≠ some .directory) : d.DeadEnd true loc := by
  refine ⟨hdir, fun target hlink n rest dest hleads => ?_⟩
  obtain ⟨-, hlocate⟩ := locate_of_reach_missing hmissing h.not_isEmpty
  obtain ⟨front, place, name, hsteps, rfl, hfront, hplace, hshort⟩ := h
  rw [List.dropLast_concat] at hleads
  -- a walk through the link would have led the path itself somewhere, or met too many links
  obtain ⟨mid, hmid⟩ := hleads.exists_front
  have hname : d.Leads true (n + 1) place [.name name] mid :=
    .link hplace hshort hlink (.inl rfl) (by rwa [List.append_nil])
  have hwalk := (hfront.append hname).locate_eq linkLimit
  rw [← hsteps, hlocate] at hwalk
  rcases hwalk with hwalk | hwalk <;> cases hwalk

theorem Names.spot (h : d.Names p loc) (hmissing : d.reach true p = .error .noEntry)
    (hdir : d.node? loc ≠ some .directory) : d.Spot p loc 0o600 := by
  obtain ⟨hnul, -⟩ := locate_of_reach_missing hmissing h.not_isEmpty
  cases hnode : d.node? loc with
  | none => exact .free (Bool.forall_bool.2 ⟨h.reach_none hnul hnode, hmissing⟩) hnode
  | some node =>
    cases node with
    | directory => exact absurd hnode hdir
    | file content mode =>
      have hreach : d.reach true p = .ok loc := h.reach hnul hnode (by simp)
      rw [hmissing] at hreach
      cases hreach
    | link target => exact .dangling hmissing (h.reach hnul hnode fun _ _ => rfl) hnode

theorem Names.written (wf : d.WellFormed) (h : d.Names p loc)
    (hmissing : d.reach true p = .error .noEntry) (hdir : d.node? loc ≠ some .directory)
    (content : Bytes) : d.Written (d.set loc (.file content 0o600)) p content loc 0o600 := by
  have hdead := h.deadEnd hmissing hdir
  have hspot := h.spot hmissing hdir
  obtain ⟨hnul, -⟩ := locate_of_reach_missing hmissing h.not_isEmpty
  obtain ⟨front, place, name, hsteps, rfl, hfront, hplace, hshort⟩ := h
  have hne : place ++ [name] ≠ [] := by simp
  have hbeside : place ≠ place ++ [name] := by simp
  have hothers : ∀ spot, spot ≠ place ++ [name] →
      (d.set (place ++ [name]) (.file content 0o600)).node? spot = d.node? spot :=
    fun spot hspot => by rw [node?_set hne, if_neg hspot]
  have hnode : (d.set (place ++ [name]) (.file content 0o600)).node? (place ++ [name]) =
      some (.file content 0o600) := by rw [node?_set hne, if_pos rfl]
  have hname : IsName name :=
    Path.isName_of_mem_steps (by simp [hsteps]) hnul hshort
  have hafter : (d.set (place ++ [name]) (.file content 0o600)).Names p (place ++ [name]) :=
    ⟨front, place, name, hsteps, rfl, by rw [home_set]; exact hfront.carry hdead hothers hbeside,
      by rw [hothers place hbeside, hplace], hshort⟩
  exact ⟨hspot, hnode, hothers, home_set _ _ _, wf.set hname hplace hdir _,
    hafter.reach hnul hnode (by simp)⟩

theorem written_file (wf : d.WellFormed) {old : Bytes} {mode : Nat} (hreach : d.reach true p = .ok loc)
    (hfile : d.node? loc = some (.file old mode)) (content : Bytes) :
    d.Written (d.set loc (.file content mode)) p content loc mode := by
  have hne := ne_nil_of_file hfile
  have houtline := outline_set_file wf hfile content
  refine ⟨.file hreach hfile, by rw [node?_set hne, if_pos rfl],
    fun place hplace => by rw [node?_set hne, if_neg hplace], home_set _ _ _, wf.of_outline houtline, ?_⟩
  rw [← reach_outline, houtline, reach_outline, hreach]

section Temporary
variable {temporary : Location} {content : Bytes} {mode : Nat}

theorem node?_set_directory (hne : temporary ≠ []) (hfree : temporary ∉ d.places) {place : Location} :
    (d.set temporary (.file content mode)).node? place = some .directory ↔
      d.node? place = some .directory := by
  rw [node?_set hne]
  split_ifs with hplace
  · subst hplace
    simp [node?_of_notMem hne hfree]
  · rfl

/-- A temporary file does not change what the names before the last one lead to. -/
theorem Names.of_set (hne : temporary ≠ []) (hfree : temporary ∉ d.places)
    (h : (d.set temporary (.file content mode)).Names p loc) : d.Names p loc := by
  obtain ⟨front, place, name, hsteps, hloc, hfront, hplace, hshort⟩ := h
  have hspot : (d.set temporary (.file content mode)).node? temporary = some (.file content mode) := by
    rw [node?_set hne, if_pos rfl]
  have hdead : (d.set temporary (.file content mode)).DeadEnd true temporary :=
    ⟨by simp [hspot], by simp [hspot]⟩
  have hsame : ∀ spot, spot ≠ temporary →
      d.node? spot = (d.set temporary (.file content mode)).node? spot :=
    fun spot hspot => by rw [node?_set hne, if_neg hspot]
  have hbeside : place ≠ temporary := by
    rintro rfl
    simp [hspot] at hplace
  rw [home_set] at hfront
  exact ⟨front, place, name, hsteps, hloc, hfront.carry hdead hsame hbeside,
    (node?_set_directory hne hfree).1 hplace, hshort⟩

theorem names_of_destination (wf : d.WellFormed) (hne : temporary ≠ []) (hfree : temporary ∉ d.places)
    (h : (d.set temporary (.file content mode)).destination p = .ok loc) :
    d.Names p loc ∧ d.node? loc ≠ some .directory := by
  have hdirectory : ∀ {place}, (d.set temporary (.file content mode)).node? place = some .directory ↔
      d.node? place = some .directory := node?_set_directory hne hfree
  obtain ⟨hnames, hdir⟩ := destination_eq_ok (by rw [home_set, hdirectory, wf.home])
    (fun place name hplace => hdirectory.2 (wf.parent (hdirectory.1 hplace))) h
  exact ⟨hnames.of_set hne hfree, fun hloc => hdir (hdirectory.2 hloc)⟩

end Temporary

/-! ## The write -/

theorem writeTarget_eq_ok {target : Path} (h : d.writeTarget p = .ok target) :
    d.canonical p = .ok target ∨ target = p ∧ d.reach true p = .error .noEntry := by
  unfold writeTarget at h
  split at h
  · next found hfound =>
    obtain rfl := Except.ok.inj h
    exact .inl hfound
  · next fault hfault =>
    split_ifs at h with hmissing
    exact .inr ⟨(Except.ok.inj h).symm, canonical_missing hfault hmissing⟩

theorem replace_cases [Device] (d : Disk) (p : Path) (content : Bytes) :
    (∃ fault, d.replace p content = (.error fault, d)) ∨
      ∃ target temporary loc, d.writeTarget p = .ok target ∧ temporary ≠ [] ∧ temporary ∉ d.places ∧
        (d.set temporary (.file content (d.modeFor target))).destination target = .ok loc ∧
        d.replace p content = (.ok (), d.set loc (.file content (d.modeFor target))) := by
  rw [replace_eq]
  cases d.writeTarget p with
  | error fault => exact .inl ⟨fault, rfl⟩
  | ok target =>
    dsimp only
    cases hcreate : Device.permit .create p >>= fun _ => d.createTemporary target.directory with
    | error fault => exact .inl ⟨fault, rfl⟩
    | ok created =>
      obtain ⟨temporary, fresh⟩ := created
      obtain ⟨hne, hfree, -⟩ := createTemporary_eq_ok (of_permit hcreate)
      dsimp only
      cases permits p (d.stat target).isOk with
      | error fault => exact .inl ⟨fault, rfl⟩
      | ok =>
        cases hdestination :
            (d.set temporary (.file content (d.modeFor target))).destination target with
        | error fault => exact .inl ⟨fault, rfl⟩
        | ok loc =>
          exact .inr ⟨target, temporary, loc, rfl, hne, hfree, hdestination,
            rfl⟩

theorem modeFor_of_missing (h : d.reach true p = .error .noEntry) : d.modeFor p = 0o600 := by
  unfold modeFor
  cases hstat : d.stat p with
  | ok node =>
    obtain ⟨place, hplace, -⟩ := stat_eq_ok.1 hstat
    cases h.symm.trans (reach_of_resolve hplace)
  | error fault => rfl

theorem written_of_destination (wf : d.WellFormed) {target : Path} {temporary : Location}
    {content : Bytes} (htarget : d.writeTarget p = .ok target) (hne : temporary ≠ [])
    (hfree : temporary ∉ d.places)
    (hdestination : (d.set temporary (.file content (d.modeFor target))).destination target = .ok loc) :
    ∃ mode, d.Written (d.set loc (.file content (d.modeFor target))) p content loc mode := by
  rcases writeTarget_eq_ok htarget with hcanonical | ⟨rfl, hmissing⟩
  · obtain ⟨place, hreach, rfl, hshort⟩ := canonical_eq_ok hcanonical
    obtain ⟨node, hnode, hplain⟩ := wf.exists_node_of_reach hreach
    rw [destination_set wf hnode hplain hshort hne hfree] at hdestination
    cases node with
    | link target => exact absurd rfl (hplain target)
    | directory => cases hdestination
    | file old mode =>
      obtain rfl := Except.ok.inj hdestination
      have hmode : d.modeFor (absolute place) = mode := by
        rw [modeFor, stat_absolute wf hnode hplain hshort]
        rfl
      rw [hmode]
      exact ⟨mode, written_file wf hreach hnode content⟩
  · obtain ⟨hnames, hdir⟩ := names_of_destination wf hne hfree hdestination
    rw [modeFor_of_missing hmissing]
    exact ⟨0o600, hnames.written wf hmissing hdir content⟩

section Written
variable {after : Disk} {content : Bytes} {mode : Nat}

/-- What was written is read back, unless the path has too many bytes to be opened at all. -/
theorem Written.read (h : d.Written after p content loc mode) :
    after.read p = .ok content ∨
      pathLimit ≤ p.bytes.length ∧ after.read p = .error .nameTooLong := by
  by_cases hlong : pathLimit ≤ p.bytes.length
  · have hnul : nul ∉ p.bytes := (reach_eq_ok.1 h.reach).1
    have hresolve : after.resolve true p = .error .nameTooLong := by
      simp [resolve, hlong, hnul]
    exact .inr ⟨hlong, by simp [Disk.read, stat, hresolve, bind, Except.bind]⟩
  · exact .inl (read_eq_ok.2 ⟨loc, mode, by rw [resolve_of_reach (not_le.1 hlong), h.reach], h.node⟩)

/-- A link stays, unless it is what the path itself names and has no target. -/
theorem Written.link (h : d.Written after p content loc mode) {place : Location} {target : Path}
    (hlink : d.node? place = some (.link target)) :
    after.node? place = some (.link target) ∨
      place = loc ∧ d.reach false p = .ok loc ∧ d.reach true p = .error .noEntry := by
  by_cases hplace : place = loc
  · subst hplace
    cases h.spot with
    | file _ hnode => cases hnode.symm.trans hlink
    | free _ hnode => cases hnode.symm.trans hlink
    | dangling hmissing hreach _ => exact .inr ⟨rfl, hreach, hmissing⟩
  · exact .inl (by rw [h.others place hplace, hlink])

end Written

/-- A write fails and leaves the disk as it is, or it changes one place. A link stays, unless the path
names it and its target is missing: then the file takes its place. -/
theorem replace_atomic [Device] (wf : d.WellFormed) (p : Path) (content : Bytes) :
    (∀ fault, (d.replace p content).1 = .error fault → (d.replace p content).2 = d) ∧
    ((d.replace p content).1 = .ok () →
      ∃ loc mode, d.Written (d.replace p content).2 p content loc mode ∧
        ((d.replace p content).2.read p = .ok content ∨
          pathLimit ≤ p.bytes.length ∧ (d.replace p content).2.read p = .error .nameTooLong) ∧
        ∀ place target, d.node? place = some (.link target) →
          (d.replace p content).2.node? place = some (.link target) ∨
            place = loc ∧ d.reach false p = .ok loc ∧ d.reach true p = .error .noEntry) := by
  obtain ⟨fault, hreplace⟩ | ⟨target, temporary, loc, htarget, hne, hfree, hdestination, hreplace⟩ :=
    replace_cases d p content
  · rw [hreplace]
    exact ⟨fun _ _ => rfl, fun hok => by cases hok⟩
  · rw [hreplace]
    obtain ⟨mode, hwritten⟩ := written_of_destination wf htarget hne hfree hdestination
    exact ⟨fun fault herror => (by cases herror), fun _ =>
      ⟨loc, mode, hwritten, hwritten.read, fun place target hlink => hwritten.link hlink⟩⟩

/-- Through a link the file behind it is written. -/
theorem replace_atomic_link :
    ∃ loc mode, linkedSource.Written
        (linkedSource.replace (Path.ofText "b.ts") (Bytes.ofText "x\n")).2 (Path.ofText "b.ts")
        (Bytes.ofText "x\n") loc mode ∧
      (linkedSource.replace (Path.ofText "b.ts") (Bytes.ofText "x\n")).2.read (Path.ofText "b.ts") =
        .ok (Bytes.ofText "x\n") := by
  have hwf : linkedSource.WellFormed := of_decide_eq_true (by cbv)
  obtain ⟨loc, mode, hwritten, hread, -⟩ :=
    (replace_atomic hwf (Path.ofText "b.ts") (Bytes.ofText "x\n")).2 (by cbv)
  exact ⟨loc, mode, hwritten, hread.resolve_right fun hlong => absurd hlong.1 (by decide)⟩

/-- A device that takes no new content. -/
abbrev fullDevice : Device where
  refusal?
    | .write, _ => some (.plain .other)
    | _, _ => none

example : @replace fullDevice linkedSource (Path.ofText "b.ts") (Bytes.ofText "x\n") =
    (.error (.plain .other), linkedSource) := by cbv

/-- A link without a target is lost to the file that takes its place. -/
example :
    (replace ⟨[([Bytes.ofText "d"], .link (Path.ofText "gone.ts"))], []⟩ (Path.ofText "d")
      (Bytes.ofText "x")).2 =
    ⟨[([Bytes.ofText "d"], .file (Bytes.ofText "x") 0o600)], []⟩ := by cbv

end Disk
end Uncomment
