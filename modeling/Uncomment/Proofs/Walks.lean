import Mathlib
import Uncomment.Proofs.Disks

/-! Walks along a path, taken apart at their last name, put behind each other, and carried over to a
disk on which one place has changed. The bound on links only decides whether a walk goes through. -/
namespace Uncomment.Disk
variable {d d' : Disk} {follow : Bool} {n : Nat} {loc dest : Location} {todo : List Component}

theorem node?_dropLast
    (hparent : ∀ place name, d.node? (place ++ [name]) = some .directory →
      d.node? place = some .directory) (h : d.node? loc = some .directory) :
    d.node? loc.dropLast = some .directory := by
  rcases List.eq_nil_or_concat' loc with rfl | ⟨front, name, rfl⟩
  · rfl
  · rw [List.dropLast_concat, hparent _ _ h]

namespace Leads

/-- A walk ends where something is, and at a link only if that is not to be followed. -/
theorem exists_node (wf : d.WellFormed) (h : d.Leads follow n loc todo dest)
    (hloc : ∃ node, d.node? loc = some node ∧ ∀ target, node = .link target → follow = false) :
    ∃ node, d.node? dest = some node ∧ ∀ target, node = .link target → follow = false := by
  induction h with
  | done => exact hloc
  | root _ _ ih => exact ih ⟨.directory, rfl, by simp⟩
  | here _ _ ih => exact ih hloc
  | up hdir _ ih => exact ih ⟨.directory, node?_dropLast (fun _ _ => wf.parent) hdir, by simp⟩
  | stop _ _ hlink hstop => exact ⟨_, hlink, fun _ _ => hstop⟩
  | link _ _ _ _ _ ih => exact ih hloc
  | name _ _ hnode hplain _ ih => exact ih ⟨_, hnode, fun target ht => absurd ht (hplain target)⟩

/-- Only from a directory a walk goes on. -/
theorem eq_of_ne_directory (h : d.Leads follow n loc todo dest)
    (hloc : d.node? loc ≠ some .directory) : todo = [] ∧ loc = dest := by
  cases h with
  | done => exact ⟨rfl, rfl⟩
  | root hdir => exact absurd hdir hloc
  | here hdir => exact absurd hdir hloc
  | up hdir => exact absurd hdir hloc
  | stop hdir => exact absurd hdir hloc
  | link hdir => exact absurd hdir hloc
  | name hdir => exact absurd hdir hloc

/-- With another bound on links a walk leads to the same place or meets too many of them. -/
theorem locate_eq (h : d.Leads follow n loc todo dest) (m : Nat) :
    d.locate follow m loc todo = .ok dest ∨ d.locate follow m loc todo = .error .linkLoop := by
  induction h generalizing m with
  | done => exact .inl (by simp [locate])
  | root hdir _ ih => simpa [locate, hdir] using ih m
  | here hdir _ ih => simpa [locate, hdir] using ih m
  | up hdir _ ih => simpa [locate, hdir] using ih m
  | stop hdir hshort hlink hstop => exact .inl (locate_eq_ok.2 (.stop hdir hshort hlink hstop))
  | @link links loc dest rest name target hdir hshort hlink hgo _ ih =>
    have hno : ¬ (rest.isEmpty && !follow) = true := by
      rcases hgo with rfl | hne
      · simp
      · simp [hne]
    cases m with
    | zero => exact .inr (by simp [locate, hdir, not_lt.2 hshort, hlink, hno])
    | succ m => simpa [locate, hdir, not_lt.2 hshort, hlink, hno] using ih m
  | @name links loc dest rest name node hdir hshort hnode hplain _ ih =>
    cases node with
    | link target => exact absurd rfl (hplain target)
    | file content mode => simpa [locate, hdir, not_lt.2 hshort, hnode] using ih m
    | directory => simpa [locate, hdir, not_lt.2 hshort, hnode] using ih m

theorem weaken {m : Nat} (h : d.Leads follow n loc todo dest) (hle : n ≤ m) :
    d.Leads follow m loc todo dest := by
  induction h generalizing m with
  | done => exact .done
  | root hdir _ ih => exact .root hdir (ih hle)
  | here hdir _ ih => exact .here hdir (ih hle)
  | up hdir _ ih => exact .up hdir (ih hle)
  | stop hdir hshort hlink hstop => exact .stop hdir hshort hlink hstop
  | link hdir hshort hlink hgo _ ih =>
    obtain ⟨m, rfl⟩ := Nat.exists_eq_succ_of_ne_zero (Nat.ne_zero_of_lt hle)
    exact .link hdir hshort hlink hgo (ih (Nat.le_of_succ_le_succ hle))
  | name hdir hshort hnode hplain _ ih => exact .name hdir hshort hnode hplain (ih hle)

theorem append {m : Nat} {rest : List Component} {mid : Location}
    (h : d.Leads true n loc todo mid) (h' : d.Leads true m mid rest dest) :
    d.Leads true (n + m) loc (todo ++ rest) dest := by
  induction h with
  | done => exact h'.weaken (Nat.le_add_left _ _)
  | root hdir _ ih => exact .root hdir (ih h')
  | here hdir _ ih => exact .here hdir (ih h')
  | up hdir _ ih => exact .up hdir (ih h')
  | stop _ _ _ hstop => cases hstop
  | @link links loc dest rest name target hdir hshort hlink _ _ ih =>
    rw [Nat.succ_add]
    exact .link hdir hshort hlink (.inl rfl) (by simpa using ih h')
  | name hdir hshort hnode hplain _ ih => exact .name hdir hshort hnode hplain (ih h')

theorem exists_front {rest : List Component} (h : d.Leads true n loc (todo ++ rest) dest) :
    ∃ mid, d.Leads true n loc todo mid := by
  generalize hall : todo ++ rest = all at h
  induction h generalizing todo with
  | @done links loc =>
    obtain ⟨rfl, -⟩ := List.append_eq_nil_iff.1 hall
    exact ⟨loc, .done⟩
  | @root links loc dest more hdir _ ih =>
    rcases List.append_eq_cons_iff.1 hall with ⟨rfl, -⟩ | ⟨todo, rfl, hmore⟩
    · exact ⟨loc, .done⟩
    · obtain ⟨mid, hmid⟩ := ih hmore.symm
      exact ⟨mid, .root hdir hmid⟩
  | @here links loc dest more hdir _ ih =>
    rcases List.append_eq_cons_iff.1 hall with ⟨rfl, -⟩ | ⟨todo, rfl, hmore⟩
    · exact ⟨loc, .done⟩
    · obtain ⟨mid, hmid⟩ := ih hmore.symm
      exact ⟨mid, .here hdir hmid⟩
  | @up links loc dest more hdir _ ih =>
    rcases List.append_eq_cons_iff.1 hall with ⟨rfl, -⟩ | ⟨todo, rfl, hmore⟩
    · exact ⟨loc, .done⟩
    · obtain ⟨mid, hmid⟩ := ih hmore.symm
      exact ⟨mid, .up hdir hmid⟩
  | stop _ _ _ hstop => cases hstop
  | @link links loc dest more name target hdir hshort hlink _ _ ih =>
    rcases List.append_eq_cons_iff.1 hall with ⟨rfl, -⟩ | ⟨todo, rfl, hmore⟩
    · exact ⟨loc, .done⟩
    · obtain ⟨mid, hmid⟩ := @ih (steps target ++ todo) (by rw [List.append_assoc, hmore])
      exact ⟨mid, .link hdir hshort hlink (.inl rfl) hmid⟩
  | @name links loc dest more name node hdir hshort hnode hplain _ ih =>
    rcases List.append_eq_cons_iff.1 hall with ⟨rfl, -⟩ | ⟨todo, rfl, hmore⟩
    · exact ⟨loc, .done⟩
    · obtain ⟨mid, hmid⟩ := ih hmore.symm
      exact ⟨mid, .name hdir hshort hnode hplain hmid⟩

/-- One name further, links not followed: only the name itself can be refused. -/
theorem locate_concat_name (h : d.Leads true n loc todo dest)
    (hdest : d.node? dest = some .directory) (name : Bytes) :
    d.locate false n loc (todo ++ [.name name]) =
      if nameLimit < name.length then .error .nameTooLong
      else if (d.node? (dest ++ [name])).isSome then .ok (dest ++ [name]) else .error .noEntry := by
  induction h with
  | done =>
    by_cases hlong : nameLimit < name.length
    · simp [locate, hdest, hlong]
    · cases hnode : d.node? (_ ++ [name]) with
      | none => simp [locate, hdest, hlong, hnode]
      | some node => cases node <;> simp [locate, hdest, hlong, hnode]
  | root hdir _ ih => simpa [locate, hdir] using ih hdest
  | here hdir _ ih => simpa [locate, hdir] using ih hdest
  | up hdir _ ih => simpa [locate, hdir] using ih hdest
  | stop _ _ _ hstop => cases hstop
  | link hdir hshort hlink _ _ ih => simpa [locate, hdir, not_lt.2 hshort, hlink] using ih hdest
  | @name links loc dest rest passed node hdir hshort hnode hplain _ ih =>
    cases node with
    | link target => exact absurd rfl (hplain target)
    | file content mode => simpa [locate, hdir, not_lt.2 hshort, hnode] using ih hdest
    | directory => simpa [locate, hdir, not_lt.2 hshort, hnode] using ih hdest

end Leads

/-- The steps end with a name, and those before it lead to the directory where `dest` has that name. -/
def Approaches (d : Disk) (n : Nat) (loc : Location) (todo : List Component) (dest : Location) : Prop :=
  ∃ front place name, todo = front ++ [.name name] ∧ dest = place ++ [name] ∧
    d.Leads true n loc front place ∧ d.node? place = some .directory ∧ name.length ≤ nameLimit

/-- A walk from a directory to something else ends with the name of it. -/
theorem Leads.approaches
    (hparent : ∀ place name, d.node? (place ++ [name]) = some .directory →
      d.node? place = some .directory)
    (h : d.Leads false n loc todo dest) (hloc : d.node? loc = some .directory)
    (hdest : d.node? dest ≠ some .directory) : d.Approaches n loc todo dest := by
  induction h with
  | done => exact absurd hloc hdest
  | root hdir _ ih =>
    obtain ⟨front, place, name, rfl, hend, hfront, hlast⟩ := ih rfl hdest
    exact ⟨.root :: front, place, name, rfl, hend, .root hdir hfront, hlast⟩
  | here hdir _ ih =>
    obtain ⟨front, place, name, rfl, hend, hfront, hlast⟩ := ih hdir hdest
    exact ⟨.here :: front, place, name, rfl, hend, .here hdir hfront, hlast⟩
  | up hdir _ ih =>
    obtain ⟨front, place, name, rfl, hend, hfront, hlast⟩ := ih (node?_dropLast hparent hdir) hdest
    exact ⟨.up :: front, place, name, rfl, hend, .up hdir hfront, hlast⟩
  | @stop links loc name target hdir hshort => exact ⟨[], loc, name, rfl, rfl, .done, hdir, hshort⟩
  | @link links loc dest rest passed goal hdir hshort hnode hgo _ ih =>
    obtain ⟨front, place, name, hall, hend, hfront, hlast⟩ := ih hdir hdest
    -- the last step is no step of the link, since a link in last place is not followed
    rcases List.eq_nil_or_concat' rest with rfl | ⟨rest, last, rfl⟩
    · simp at hgo
    · rw [← List.append_assoc] at hall
      obtain ⟨rfl, hname⟩ := List.append_inj' hall rfl
      obtain rfl : last = .name name := by simpa using hname
      exact ⟨.name passed :: rest, place, name, rfl, hend,
        .link hdir hshort hnode (.inl rfl) hfront, hlast⟩
  | @name links loc dest rest passed node hdir hshort hnode hplain h ih =>
    by_cases hnext : node = .directory
    · subst hnext
      obtain ⟨front, place, name, rfl, hend, hfront, hlast⟩ := ih hnode hdest
      exact ⟨.name passed :: front, place, name, rfl, hend,
        .name hdir hshort hnode hplain hfront, hlast⟩
    · obtain ⟨rfl, rfl⟩ := h.eq_of_ne_directory (by simpa [hnode] using hnext)
      exact ⟨[], loc, passed, rfl, rfl, .done, hdir, hshort⟩

/-- What a path leads to is there and no link. -/
theorem WellFormed.exists_node_of_reach (wf : d.WellFormed) {p : Path} (h : d.reach true p = .ok loc) :
    ∃ node, d.node? loc = some node ∧ ∀ target, node ≠ .link target := by
  obtain ⟨node, hnode, hplain⟩ :=
    (reach_eq_ok.1 h).2.2.exists_node wf ⟨.directory, wf.home, by simp⟩
  exact ⟨node, hnode, fun target ht => absurd (hplain target ht) (by simp)⟩

/-- A walk can end at `spot` but not go on from there: it is no directory, and a link there leads
nowhere. -/
structure DeadEnd (d : Disk) (follow : Bool) (spot : Location) : Prop where
  directory : d.node? spot ≠ some .directory
  link : ∀ target, d.node? spot = some (.link target) →
    ∀ n rest dest, ¬ d.Leads follow n spot.dropLast (steps target ++ rest) dest

/-- A walk that does not end at a dead end does not notice what becomes of it. -/
theorem Leads.carry {spot : Location} (hspot : d.DeadEnd follow spot)
    (hsame : ∀ place, place ≠ spot → d'.node? place = d.node? place)
    (h : d.Leads follow n loc todo dest) (hdest : dest ≠ spot) : d'.Leads follow n loc todo dest := by
  have hkeep : ∀ {place}, d.node? place = some .directory → d'.node? place = some .directory := by
    intro place hdir
    rw [hsame place ?_, hdir]
    rintro rfl
    exact hspot.directory hdir
  induction h with
  | done => exact .done
  | root hdir _ ih => exact .root (hkeep hdir) (ih hdest)
  | here hdir _ ih => exact .here (hkeep hdir) (ih hdest)
  | up hdir _ ih => exact .up (hkeep hdir) (ih hdest)
  | stop hdir hshort hlink hstop =>
    exact .stop (hkeep hdir) hshort (by rw [hsame _ hdest, hlink]) hstop
  | @link links loc dest rest name target hdir hshort hlink hgo h ih =>
    refine .link (hkeep hdir) hshort ?_ hgo (ih hdest)
    rw [hsame _ ?_, hlink]
    rintro rfl
    have hno := hspot.link target hlink
    rw [List.dropLast_concat] at hno
    exact hno _ _ _ h
  | @name links loc dest rest name node hdir hshort hnode hplain h ih =>
    refine .name (hkeep hdir) hshort ?_ hplain (ih hdest)
    rw [hsame _ ?_, hnode]
    rintro rfl
    exact hdest (h.eq_of_ne_directory hspot.directory).2.symm

end Uncomment.Disk
