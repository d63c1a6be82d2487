import Mathlib
import Uncomment.Proofs.Rescan

/-! What the `preserve` layout takes out. Some comments go and nothing else changes, so the text can
be put together again from the output and the comments that went. Of a run of comments without a
protected text all go, or all but the last one when the bytes around the run open a comment. -/
namespace Uncomment
open Atom Strip
open Emitter (kept)

/-- A comment that holds none of the protected texts. -/
def Bare (keep : List Bytes) (g : Segment) : Prop :=
  g.isComment = true ∧ ∀ text ∈ keep, text ≠ [] → ¬ text <:+: g.bytes

/-- A run of bare comments with no bare comment beside it. -/
structure BareRun (keep : List Bytes) (segments before run after : List Segment) : Prop where
  split : segments = before ++ (run ++ after)
  nonempty : run ≠ []
  bare : ∀ g ∈ run, Bare keep g
  left : ∀ g ∈ before.getLast?, ¬ Bare keep g
  right : ∀ g ∈ after.head?, ¬ Bare keep g

/-- Two bytes that are a line marker or the opening of a block comment. -/
def Opening (lang : Language) (a b : UInt8) : Prop :=
  [a, b] ∈ lang.lineMarkers ∨ ∃ d ∈ lang.blocks, d.opening = [a, b]

/-- The bytes of the segments outside `R`. -/
def remain (R : Finset Segment) (segments : List Segment) : Bytes :=
  (segments.filter (· ∉ R)).flatMap (·.bytes)

/-- Put segments back where they stood, into a text that begins at offset `pos`. -/
def reinsert : List Segment → Nat → Bytes → Bytes
  | [], _, out => out
  | g :: gs, pos, out =>
    out.take (g.start - pos) ++ (g.bytes ++ reinsert gs g.stop (out.drop (g.start - pos)))

/-- The outcome of taking the comments in `R` out of `s` and leaving all else as it is. -/
structure TakesOut (lang : Language) (keep : List Bytes) (s : Bytes) (r : StripOutcome)
    (R : Finset Segment) : Prop where
  bare : ∀ g ∈ R, g ∈ scan lang s ∧ Bare keep g
  output : r.output = remain R (scan lang s)
  rebuild : reinsert ((scan lang s).filter (· ∈ R)) 0 r.output = s
  removed : r.removed = ((scan lang s).filter (· ∈ R)).map fun g =>
    ⟨g.startLine, Text.trim (Utf8.lossy g.bytes)⟩
  count : r.commentsRemoved = R.card
  runs : ∀ before run after, BareRun keep (scan lang s) before run after →
    ((∀ g ∈ run, g ∈ R) ∨ (∀ g ∈ run.dropLast, g ∈ R) ∧ ∀ g ∈ run.getLast?, g ∉ R) ∧
    ((∀ g ∈ run.getLast?, g ∉ R) ↔ ∃ a b, (remain R before).getLast? = some a ∧
      (remain R after).head? = some b ∧ Opening lang a b)

theorem bare_iff {keep : List Bytes} {g : Segment} :
    Bare keep g ↔ removable keep g.toLexeme = true := by
  have hfree : (∀ text ∈ keep, text ≠ [] → ¬ text <:+: g.bytes) ↔ isProtected keep g.bytes = false := by
    simp only [isProtected, List.any_eq_false, Bool.and_eq_true, Bool.not_eq_true',
      List.isEmpty_eq_false_iff, Bytes.includes_iff, not_and, ne_eq]
  rw [Bare, removable, Bool.and_eq_true, Bool.not_eq_true', hfree]

theorem opening_iff {lang : Language} {a b : UInt8} :
    Opening lang a b ↔ meets lang (some a) (some b) = true := by
  have htoken : Opening lang a b ↔ [a, b] ∈ lang.lineMarkers ++ lang.blocks.map Delimiter.opening := by
    simp [Opening]
  rw [htoken, meets, gluePairs, List.contains_iff_mem, List.mem_filterMap]
  constructor
  · exact fun h => ⟨[a, b], h, rfl⟩
  · rintro ⟨token, hmem, hpair⟩
    split at hpair
    · obtain ⟨rfl, rfl⟩ := Prod.mk.inj (Option.some.inj hpair)
      exact hmem
    · cases hpair

section Reinsert

theorem reinsert_append {gs : List Segment} {pos : Nat} {a : Bytes}
    (h : ∀ g ∈ gs.head?, pos + a.length ≤ g.start) (out : Bytes) :
    reinsert gs pos (a ++ out) = a ++ reinsert gs (pos + a.length) out := by
  cases gs with
  | nil => rfl
  | cons g gs =>
    have hle := h g rfl
    have hsplit : g.start - pos = a.length + (g.start - (pos + a.length)) := by omega
    simp only [reinsert, hsplit, List.take_length_add_append, List.drop_length_add_append,
      List.append_assoc]

theorem start_le_of_mem {gs : List Segment} {pos : Nat} (hpos : ∀ g ∈ gs.head?, g.start = pos)
    (hchain : gs.IsChain fun g h => g.stop = h.start) : ∀ g ∈ gs, pos ≤ g.start := by
  induction gs generalizing pos with
  | nil => simp
  | cons g gs ih =>
    have hstart := hpos g rfl
    have hrest := ih (fun h hh => (hchain.rel_head? hh).symm) hchain.tail
    intro h hh
    rcases List.mem_cons.1 hh with rfl | hh
    · exact hstart.ge
    · have hstop : g.stop = g.start + g.bytes.length := rfl
      have := hrest h hh
      omega

/-- Consecutive segments are put together again from those outside `R` and those in it. -/
theorem reinsert_remain (R : Finset Segment) (gs : List Segment) {pos : Nat}
    (hpos : ∀ g ∈ gs.head?, g.start = pos) (hchain : gs.IsChain fun g h => g.stop = h.start) :
    reinsert (gs.filter (· ∈ R)) pos (remain R gs) = gs.flatMap (·.bytes) := by
  induction gs generalizing pos with
  | nil => rfl
  | cons g gs ih =>
    have hnext : ∀ h ∈ gs.head?, h.start = g.stop := fun h hh => (hchain.rel_head? hh).symm
    have hrest := ih hnext hchain.tail
    obtain rfl := hpos g rfl
    by_cases hg : g ∈ R
    · have hremain : remain R (g :: gs) = remain R gs := by simp [remain, hg]
      rw [List.filter_cons_of_pos (by simpa using hg), hremain, reinsert, Nat.sub_self, List.take_zero,
        List.drop_zero, hrest, List.nil_append, List.flatMap_cons]
    · have hremain : remain R (g :: gs) = g.bytes ++ remain R gs := by simp [remain, hg]
      rw [List.filter_cons_of_neg (by simpa using hg), hremain, reinsert_append, List.flatMap_cons]
      · exact congrArg (g.bytes ++ ·) hrest
      · intro h hh
        have hmem : h ∈ gs := List.mem_of_mem_filter (List.mem_of_mem_head? hh)
        exact start_le_of_mem hnext hchain.tail h hmem

end Reinsert

section Fates
variable {E : List (Segment × Bool)}

theorem mem_dropped_iff (hE : (E.map (·.1)).Nodup) {f : Segment × Bool} (hf : f ∈ E) :
    f.1 ∈ dropped E ↔ f.2 = false := by
  constructor
  · intro h
    obtain ⟨k, hk, hfst⟩ := List.mem_map.1 h
    obtain ⟨hk, hfalse⟩ := List.mem_filter.1 hk
    obtain rfl : k = f := List.inj_on_of_nodup_map hE hk hf hfst
    simpa using hfalse
  · intro h
    exact List.mem_map.2 ⟨f, List.mem_filter.2 ⟨hf, by simp [h]⟩, rfl⟩

theorem filter_mem_dropped (hE : (E.map (·.1)).Nodup) :
    (E.map (·.1)).filter (· ∈ (dropped E).toFinset) = dropped E := by
  rw [List.filter_map, dropped]
  refine congrArg (List.map _) (List.filter_congr fun f hf => ?_)
  have := mem_dropped_iff hE hf
  cases h : f.2 <;> simp_all [dropped]

theorem remain_dropped (hE : (E.map (·.1)).Nodup) :
    remain (dropped E).toFinset (E.map (·.1)) = flat (explode (kept E)) := by
  have hfilter : (E.map (·.1)).filter (· ∉ (dropped E).toFinset) = (E.filter (·.2)).map (·.1) := by
    rw [List.filter_map]
    refine congrArg (List.map _) (List.filter_congr fun f hf => ?_)
    have := mem_dropped_iff hE hf
    cases h : f.2 <;> simp_all
  rw [remain, hfilter, flat_explode, kept, List.flatMap_map, List.flatMap_map]

end Fates

section Runs
variable {lang : Language} {keep : List Bytes} {segments before run after : List Segment}

theorem removable_eq_false {g : Segment} (h : ¬ Bare keep g) : removable keep g.toLexeme = false := by
  rwa [bare_iff, Bool.not_eq_true] at h

/-- A run of bare comments is resolved by the byte before it and the byte after it. -/
theorem fates_bareRun (h : BareRun keep segments before run after) :
    ∃ E₁ E₂, fates lang keep none [] segments = E₁ ++ (resolve (meets lang
      (before.getLast?.bind (·.bytes.getLast?)) (after.head?.bind (·.bytes.head?))) run.reverse
        ++ E₂) := by
  have hrun : ∀ g ∈ run, removable keep g.toLexeme = true := fun g hg => bare_iff.1 (h.bare g hg)
  have hafter : ∀ last, ∃ E₂, fates lang keep last [] (run ++ after) =
      resolve (meets lang last (after.head?.bind (·.bytes.head?))) run.reverse ++ E₂ := by
    intro last
    rw [fates_comments hrun, List.append_nil]
    cases after with
    | nil => exact ⟨[], by simp [fates]⟩
    | cons g gs =>
      have hg := removable_eq_false (h.right g rfl)
      rw [fates, hg]
      exact ⟨_, rfl⟩
  rw [h.split]
  rcases List.eq_nil_or_concat before with rfl | ⟨front, g, rfl⟩
  · obtain ⟨E₂, hE⟩ := hafter none
    exact ⟨[], E₂, hE⟩
  · rw [List.concat_eq_append] at *
    have hg := removable_eq_false (h.left g (by simp))
    obtain ⟨E₂, hE⟩ := hafter g.bytes.getLast?
    refine ⟨fates lang keep none [] (front ++ [g]), E₂, ?_⟩
    rw [List.append_assoc, List.singleton_append, fates_append_cons hg, hE]
    simp

theorem getLast?_remain {R : Finset Segment} (hR : ∀ g ∈ R, Bare keep g)
    (hne : ∀ g ∈ segments, g.bytes ≠ []) (h : BareRun keep segments before run after) :
    (remain R before).getLast? = before.getLast?.bind (·.bytes.getLast?) := by
  rcases List.eq_nil_or_concat before with rfl | ⟨front, g, rfl⟩
  · rfl
  · rw [List.concat_eq_append] at *
    have hg : g ∉ R := fun hg => h.left g (by simp) (hR g hg)
    have hbytes : g.bytes ≠ [] := hne g (by simp [h.split])
    simp [remain, hg, List.getLast?_append, List.getLast?_eq_some_getLast hbytes]

theorem head?_remain {R : Finset Segment} (hR : ∀ g ∈ R, Bare keep g)
    (hne : ∀ g ∈ segments, g.bytes ≠ []) (h : BareRun keep segments before run after) :
    (remain R after).head? = after.head?.bind (·.bytes.head?) := by
  cases after with
  | nil => rfl
  | cons g gs =>
    have hg : g ∉ R := fun hg => h.right g rfl (hR g hg)
    obtain ⟨b, bs, hbytes⟩ := List.exists_cons_of_ne_nil (hne g (by simp [h.split]))
    simp [remain, hg, hbytes]

/-- Of a run all comments before the last one go, and the last one goes unless the bytes around the
run meet. -/
theorem mem_dropped_bareRun (hnodup : segments.Nodup) {front : List Segment} {l : Segment}
    (h : BareRun keep segments before (front ++ [l]) after) {R : Finset Segment}
    (hR : R = (dropped (fates lang keep none [] segments)).toFinset) :
    (∀ g ∈ front, g ∈ R) ∧ (l ∈ R ↔
      meets lang (before.getLast?.bind (·.bytes.getLast?)) (after.head?.bind (·.bytes.head?)) = false) := by
  obtain ⟨E₁, E₂, hE⟩ := @fates_bareRun lang keep _ _ _ _ h
  have hmap : (fates lang keep none [] segments).map (·.1) = segments := by
    simpa using @map_fst_fates lang keep none [] segments
  have hfate : ∀ f ∈ fates lang keep none [] segments, (f.1 ∈ R ↔ f.2 = false) := by
    intro f hf
    rw [hR, List.mem_toFinset]
    exact mem_dropped_iff (hmap.symm ▸ hnodup) hf
  generalize meets lang (before.getLast?.bind (·.bytes.getLast?)) (after.head?.bind (·.bytes.head?)) =
    stays at hE ⊢
  have hresolve : resolve stays (front ++ [l]).reverse = front.map (·, false) ++ [(l, stays)] := by
    simp [resolve]
  rw [hresolve] at hE
  constructor
  · intro g hg
    refine (hfate (g, false) ?_).2 rfl
    rw [hE]
    simp [hg]
  · refine hfate (l, stays) ?_
    rw [hE]
    simp

/-- All of a run goes, or all but its last comment when the bytes around the run meet. -/
theorem bareRun_dropped (hnodup : segments.Nodup) (hne : ∀ g ∈ segments, g.bytes ≠ [])
    (h : BareRun keep segments before run after) {R : Finset Segment}
    (hR : R = (dropped (fates lang keep none [] segments)).toFinset) (hbare : ∀ g ∈ R, Bare keep g) :
    ((∀ g ∈ run, g ∈ R) ∨ (∀ g ∈ run.dropLast, g ∈ R) ∧ ∀ g ∈ run.getLast?, g ∉ R) ∧
    ((∀ g ∈ run.getLast?, g ∉ R) ↔ ∃ a b, (remain R before).getLast? = some a ∧
      (remain R after).head? = some b ∧ Opening lang a b) := by
  obtain ⟨front, l, rfl⟩ : ∃ front l, run = front ++ [l] := by
    obtain hnil | ⟨front, l, hrun⟩ := List.eq_nil_or_concat run
    · exact absurd hnil h.nonempty
    · exact ⟨front, l, by rw [hrun, List.concat_eq_append]⟩
  obtain ⟨hfront, hlast⟩ := mem_dropped_bareRun hnodup h hR
  rw [getLast?_remain hbare hne h, head?_remain hbare hne h]
  generalize before.getLast?.bind (·.bytes.getLast?) = x at hlast ⊢
  generalize after.head?.bind (·.bytes.head?) = y at hlast ⊢
  have hmeets : (∃ a b, x = some a ∧ y = some b ∧ Opening lang a b) ↔ meets lang x y = true := by
    simp only [opening_iff]
    cases x <;> cases y <;> simp
  have hgetLast : (∀ g ∈ (front ++ [l]).getLast?, g ∉ R) ↔ l ∉ R := by simp
  rw [hmeets, hgetLast, hlast, Bool.not_eq_false, List.dropLast_concat]
  refine ⟨?_, Iff.rfl⟩
  cases hstays : meets lang x y with
  | false =>
    refine .inl fun g hg => ?_
    rcases List.mem_append.1 hg with hg | hg
    · exact hfront g hg
    · obtain rfl := List.mem_singleton.1 hg
      exact hlast.2 hstays
  | true => exact .inr ⟨hfront, rfl⟩

end Runs

section Scan
variable {lang : Language}

theorem partitions_scan (hs : lang.Scannable) (s : Bytes) : Partitions (scan lang s) s :=
  Scan.partitions_placeAll (Scan.flatMap_lexemes hs s) (Scan.lexemes_ne_nil hs s)

theorem scan_nodup (hs : lang.Scannable) (s : Bytes) : (scan lang s).Nodup := by
  have hp := partitions_scan hs s
  have hlt : (scan lang s).IsChain fun g h => g.start < h.start := by
    refine hp.contiguous.imp_of_mem_imp fun g h hg _ hgh => ?_
    have hpos := List.length_pos_iff.2 (hp.nonempty g hg)
    have hstop : g.stop = g.start + g.bytes.length := rfl
    omega
  have hstarts : ((scan lang s).map (·.start)).IsChain (· < ·) := (List.isChain_map _).2 hlt
  exact .of_map _ hstarts.pairwise.nodup

theorem map_fst_fates_scan (keep : List Bytes) (s : Bytes) :
    (fates lang keep none [] (scan lang s)).map (·.1) = scan lang s := by
  simpa using @map_fst_fates lang keep none [] (scan lang s)

/-- The comments that go from a text. -/
def gone (lang : Language) (keep : List Bytes) (s : Bytes) : Finset Segment :=
  (dropped (fates lang keep none [] (scan lang s))).toFinset

theorem bare_of_mem_gone {keep : List Bytes} {s : Bytes} {g : Segment} (hg : g ∈ gone lang keep s) :
    g ∈ scan lang s ∧ Bare keep g := by
  rw [gone, List.mem_toFinset] at hg
  obtain ⟨f, hf, rfl⟩ := List.mem_map.1 hg
  obtain ⟨hf, hfalse⟩ := List.mem_filter.1 hf
  refine ⟨map_fst_fates_scan keep s ▸ List.mem_map_of_mem hf, bare_iff.2 ?_⟩
  exact removable_of_dropped (by simp) f hf (by simpa using hfalse)

theorem nodup_fates_scan (hs : lang.Scannable) (keep : List Bytes) (s : Bytes) :
    ((fates lang keep none [] (scan lang s)).map (·.1)).Nodup := by
  rw [map_fst_fates_scan]
  exact scan_nodup hs s

theorem filter_mem_gone (hs : lang.Scannable) (keep : List Bytes) (s : Bytes) :
    (scan lang s).filter (· ∈ gone lang keep s) = dropped (fates lang keep none [] (scan lang s)) := by
  have h := filter_mem_dropped (nodup_fates_scan hs keep s)
  rwa [map_fst_fates_scan] at h

theorem output_eq_remain (hs : lang.Scannable) (hc : lang.CLike) (keep : List Bytes) (s : Bytes) :
    (strip lang ⟨.preserve, keep, none⟩ s).output = remain (gone lang keep s) (scan lang s) := by
  obtain ⟨A, hout, -, hfaithful, -⟩ := strip_survivors hs hc ⟨.preserve, keep, none⟩ s
  have hremain := remain_dropped (nodup_fates_scan hs keep s)
  rw [map_fst_fates_scan] at hremain
  rw [hout, hfaithful (.inl rfl), gone, hremain]
  rfl

theorem removed_eq_gone (hs : lang.Scannable) (hc : lang.CLike) (keep : List Bytes) (s : Bytes) :
    (strip lang ⟨.preserve, keep, none⟩ s).removed =
      ((scan lang s).filter (· ∈ gone lang keep s)).map RemovedComment.ofSegment := by
  obtain ⟨A, -, -, -, hremoved⟩ := strip_survivors hs hc ⟨.preserve, keep, none⟩ s
  rw [hremoved, filter_mem_gone hs]

theorem card_gone (hs : lang.Scannable) (keep : List Bytes) (s : Bytes) :
    (gone lang keep s).card = ((scan lang s).filter (· ∈ gone lang keep s)).length := by
  have hnodup : (dropped (fates lang keep none [] (scan lang s))).Nodup := by
    rw [← filter_mem_gone hs]
    exact (scan_nodup hs s).filter _
  rw [filter_mem_gone hs, gone, List.toFinset_card_of_nodup hnodup]

end Scan

/-- The `preserve` layout takes bare comments out and changes nothing else. -/
theorem strip_takesOut [Clock] (lang : Language) (hlang : lang ∈ Language.all) (keep : List Bytes)
    (path : Path) (s : Bytes) :
    ∃ r, stripFile lang ⟨.preserve, keep, none⟩ path s = .ok r ∧ ∃ R, TakesOut lang keep s r R := by
  have hs := Language.scannable_of_mem_all hlang
  have hc := Language.cLike_of_mem_all hlang
  have hp := partitions_scan hs s
  have hbare : ∀ g ∈ gone lang keep s, Bare keep g := fun g hg => (bare_of_mem_gone hg).2
  refine ⟨_, stripFile_eq rfl lang path s, gone lang keep s, fun g hg => bare_of_mem_gone hg,
    output_eq_remain hs hc keep s, ?_, removed_eq_gone hs hc keep s, ?_, fun before run after h => ?_⟩
  · rw [output_eq_remain hs hc, reinsert_remain _ _ hp.first hp.contiguous]
    exact hp.concat
  · rw [StripOutcome.commentsRemoved, removed_eq_gone hs hc, List.length_map, card_gone hs]
  · exact bareRun_dropped (scan_nodup hs s) hp.nonempty h rfl hbare

/-- The last of two comments between dashes stays, and one that holds a protected text. -/
theorem strip_takesOut_sql :
    Language.sql ∈ Language.all ∧
    ∃ r, stripFile Language.sql ⟨.preserve, [Bytes.ofText "keep"], none⟩ ⟨[]⟩
        (Bytes.ofText "1-/*a*//*b*/-2 --keep") = .ok r ∧
      r.output = Bytes.ofText "1-/*b*/-2 --keep" ∧
      ∃ R, TakesOut Language.sql [Bytes.ofText "keep"] (Bytes.ofText "1-/*a*//*b*/-2 --keep") r R := by
  have hlang : Language.sql ∈ Language.all := by simp [Language.all]
  obtain ⟨r, hr, hR⟩ := strip_takesOut Language.sql hlang [Bytes.ofText "keep"] ⟨[]⟩
    (Bytes.ofText "1-/*a*//*b*/-2 --keep")
  refine ⟨hlang, r, hr, ?_, hR⟩
  rw [stripFile_eq_ok hr]
  decide +kernel

end Uncomment
