import Mathlib.Data.List.Basic
import Mathlib.Data.List.Sort
import Relayout.Listing
import Relayout.Proofs.Outcome
import Relayout.Proofs.Path.Resolution

/-!
# What a listing gives

Sorting puts the places of a list in strict order, each with the first of its texts. So a listing
names no place twice, and the listing of a tree's own paths is a selection of them. It can only fail
by a pattern that it is given.
-/

namespace Relayout

namespace Path

variable {ps qs : List Path} {p q last : Path}

theorem Before.asymm (h : p.Before q) : ¬ q.Before p := fun h' => not_before_self (h.trans h')

instance : Std.Irrefl Before := ⟨fun _ => not_before_self⟩

instance : Std.Antisymm Before := ⟨fun _ _ h h' => absurd h' h.asymm⟩

theorem atMost_iff : atMost p q ↔ ¬ q.Before p := decide_eq_true_iff

theorem atMost_trans {r : Path} (h : atMost p q) (h' : atMost q r) : atMost p r := by
  rw [atMost_iff] at h h' ⊢
  intro hr
  rcases before_or_same_or_before p q with hpq | hpq | hpq
  · exact h' (hr.trans hpq)
  · exact h' (by rwa [Before, ← rank_eq_iff.mpr hpq])
  · exact h hpq

theorem atMost_total (p q : Path) : atMost p q || atMost q p := by
  rw [Bool.or_eq_true, atMost_iff, atMost_iff]
  by_contra h
  rw [not_or, not_not, not_not] at h
  exact h.1.asymm h.2

theorem before_of_atMost (h : atMost p q) (hs : ¬ p.Same q) : p.Before q := by
  rcases before_or_same_or_before p q with hb | hb | hb
  · exact hb
  · exact absurd hb hs
  · exact absurd hb (atMost_iff.mp h)

theorem pairwise_keepNew (h : (last :: ps).Pairwise fun p q => atMost p q) :
    (last :: dropRepeats.keepNew last ps).Pairwise Before := by
  induction ps generalizing last with
  | nil => exact List.pairwise_singleton Before last
  | cons p ps ih =>
    obtain ⟨hlast, hps⟩ := List.pairwise_cons.mp h
    unfold dropRepeats.keepNew
    split
    next =>
      exact ih (List.pairwise_cons.mpr ⟨fun q hq => hlast q (.tail p hq), hps.of_cons⟩)
    next hnew =>
      have hp : last.Before p := before_of_atMost (hlast p (.head ps)) hnew
      have hrest := ih hps
      refine List.pairwise_cons.mpr ⟨?_, hrest⟩
      intro q hq
      rcases List.mem_cons.mp hq with rfl | hq
      · exact hp
      · exact hp.trans ((List.pairwise_cons.mp hrest).1 q hq)

theorem pairwise_sorted (ps : List Path) : (sorted ps).Pairwise Before := by
  have h : (ps.mergeSort atMost).Pairwise fun p q => atMost p q :=
    @List.pairwise_mergeSort _ atMost (fun _ _ _ => atMost_trans) atMost_total ps
  unfold sorted
  cases hsort : ps.mergeSort atMost with
  | nil => exact .nil
  | cons p rest =>
    rw [hsort] at h
    exact pairwise_keepNew h

theorem filter_same (h : ps.Pairwise Before) (hp : p ∈ ps) : ps.filter (·.Same p) = [p] := by
  obtain ⟨before, after, rfl⟩ := List.append_of_mem hp
  obtain ⟨-, hafter, hbefore⟩ := List.pairwise_append.mp h
  have hleft : before.filter (·.Same p) = [] := by
    rw [List.filter_eq_nil_iff]
    intro q hq hs
    exact (hbefore q hq p (.head after)).not_same (of_decide_eq_true hs)
  have hright : after.filter (·.Same p) = [] := by
    rw [List.filter_eq_nil_iff]
    intro q hq hs
    exact ((List.pairwise_cons.mp hafter).1 q hq).not_same (of_decide_eq_true hs).symm
  simp [hleft, hright, Same.refl]

/-! ## The text that is kept for a place -/

/-- The sort is stable: what is first at a place stays first at it. -/
theorem find?_mergeSort (ps : List Path) (p : Path) :
    (ps.mergeSort atMost).find? (·.Same p) = ps.find? (·.Same p) := by
  -- The paths at one place are in order as they stand, and sorting keeps such a part of a list.
  have hle : (ps.filter (·.Same p)).Pairwise fun q r => atMost q r := by
    refine List.pairwise_of_forall_mem_list fun q hq r hr => atMost_iff.mpr fun hbefore => ?_
    have hqp : q.Same p := of_decide_eq_true (List.mem_filter.mp hq).2
    have hrp : r.Same p := of_decide_eq_true (List.mem_filter.mp hr).2
    exact hbefore.not_same (hrp.trans hqp.symm)
  have hkept : (ps.filter (·.Same p)).Sublist (ps.mergeSort atMost) :=
    @List.sublist_mergeSort _ atMost _ (fun _ _ _ => atMost_trans) atMost_total _ hle
      List.filter_sublist
  have hsame : (ps.filter (·.Same p)).Sublist ((ps.mergeSort atMost).filter (·.Same p)) := by
    simpa using hkept.filter (·.Same p)
  have hlength := ((List.mergeSort_perm ps atMost).filter (·.Same p)).length_eq
  rw [← List.head?_filter, ← List.head?_filter, hsame.eq_of_length_le hlength.le]

theorem find?_keepNew (h : ¬ last.Same p) :
    (dropRepeats.keepNew last ps).find? (·.Same p) = ps.find? (·.Same p) := by
  induction ps generalizing last with
  | nil => rfl
  | cons q ps ih =>
    unfold dropRepeats.keepNew
    by_cases hq : q.Same p
    · have hnew : ¬ last.Same q := fun hs => h (hs.trans hq)
      simp [hnew, hq]
    · split
      · simpa [hq] using ih h
      · simpa [hq] using ih hq

theorem find?_sorted (ps : List Path) (p : Path) :
    (sorted ps).find? (·.Same p) = ps.find? (·.Same p) := by
  rw [← find?_mergeSort ps, sorted]
  cases ps.mergeSort atMost with
  | nil => rfl
  | cons q rest =>
    rw [dropRepeats]
    by_cases hq : q.Same p
    · simp [hq]
    · simpa [hq] using find?_keepNew hq

/-- No place is lost, and none is added. -/
theorem exists_same_mem_sorted_iff : (∃ q ∈ sorted ps, q.Same p) ↔ ∃ q ∈ ps, q.Same p := by
  have hfound : ∀ qs : List Path, (∃ q ∈ qs, q.Same p) ↔ (qs.find? (·.Same p)).isSome := by
    simp [List.find?_isSome]
  rw [hfound, hfound, find?_sorted]

theorem mem_sorted_iff : p ∈ sorted ps ↔ ps.find? (·.Same p) = some p := by
  rw [← find?_sorted, ← List.head?_filter]
  constructor
  · intro h
    rw [filter_same (pairwise_sorted ps) h, List.head?_cons]
  · intro h
    exact (List.mem_filter.mp (List.mem_of_head? h)).1

theorem mem_of_mem_sorted (h : p ∈ sorted ps) : p ∈ ps :=
  List.mem_of_find?_eq_some (mem_sorted_iff.mp h)

/-! ## Lists with one text for each place -/

/-- Whether no place of a list is written in two ways. -/
def Unambiguous (ps : List Path) : Prop := ∀ p ∈ ps, ∀ q ∈ ps, p.Same q → p = q

instance (ps : List Path) : Decidable (Unambiguous ps) :=
  inferInstanceAs (Decidable (∀ p ∈ ps, ∀ q ∈ ps, p.Same q → p = q))

theorem Unambiguous.subset (h : Unambiguous ps) (hq : qs ⊆ ps) : Unambiguous qs :=
  fun p hp q hq' => h p (hq hp) q (hq hq')

theorem unambiguous_of_apart (h : ps.Pairwise fun p q => ¬ p.Same q) : Unambiguous ps := by
  have hforth : ps.Pairwise fun p q => p.Same q → p = q := h.imp fun hn hs => absurd hs hn
  have hback : ps.Pairwise (flip fun p q => p.Same q → p = q) :=
    h.imp fun hn hs => absurd hs.symm hn
  exact fun p hp q hq => hforth.forall_of_forall_of_flip (fun _ _ _ => rfl) hback hp hq

theorem unambiguous_of_pairwise (h : ps.Pairwise Before) : Unambiguous ps :=
  unambiguous_of_apart (h.imp Before.not_same)

theorem Unambiguous.mem_sorted_iff (h : Unambiguous ps) : p ∈ sorted ps ↔ p ∈ ps := by
  refine ⟨mem_of_mem_sorted, fun hp => ?_⟩
  obtain ⟨q, hq, hsame⟩ := exists_same_mem_sorted_iff.mpr ⟨p, hp, .refl p⟩
  rwa [← h q (mem_of_mem_sorted hq) p hp hsame]

/-- Where no place is written in two ways, the order and the repetitions of a list do not count. -/
theorem Unambiguous.sorted_eq (h : Unambiguous ps) (hmem : ∀ p, p ∈ qs ↔ p ∈ ps) :
    sorted qs = sorted ps := by
  refine (pairwise_sorted qs).eq_of_mem_iff (pairwise_sorted ps) fun p => ?_
  rw [(h.subset fun q => (hmem q).mp).mem_sorted_iff, h.mem_sorted_iff, hmem]

theorem Unambiguous.sorted_sublist (h : Unambiguous ps) (hsub : qs ⊆ ps) :
    (sorted qs).Sublist (sorted ps) := by
  have hmem : sorted qs ⊆ sorted ps := fun p hp =>
    h.mem_sorted_iff.mpr (hsub (mem_of_mem_sorted hp))
  exact List.sublist_of_subperm_of_pairwise
    (List.subperm_of_subset (pairwise_sorted qs).nodup hmem) (pairwise_sorted qs)
    (pairwise_sorted ps)

theorem Unambiguous.sorted_filter (h : Unambiguous ps) (keeps : Path → Bool) :
    sorted (ps.filter keeps) = (sorted ps).filter keeps := by
  refine (pairwise_sorted _).eq_of_mem_iff ((pairwise_sorted ps).filter keeps) fun p => ?_
  rw [(h.subset (List.filter_subset_self ps)).mem_sorted_iff, List.mem_filter, List.mem_filter,
    h.mem_sorted_iff]

/-- A list in strict order is sorted already. -/
theorem sorted_eq_self (h : ps.Pairwise Before) : sorted ps = ps :=
  (pairwise_sorted ps).eq_of_mem_iff h fun _ => (unambiguous_of_pairwise h).mem_sorted_iff

/-- Where no place is named twice, nothing is dropped. -/
theorem sorted_perm (h : ps.Pairwise fun p q => ¬ p.Same q) : (sorted ps).Perm ps := by
  have hnodup : ps.Nodup := h.imp fun hn heq => hn (congrArg components heq)
  refine (List.perm_ext_iff_of_nodup (pairwise_sorted ps).nodup hnodup).mpr fun p => ?_
  exact (unambiguous_of_apart h).mem_sorted_iff

/-- The order of a list's places is the only one that is strict. -/
theorem perm_before_iff (h : ps.Pairwise fun p q => ¬ p.Same q) :
    qs.Perm ps ∧ qs.Pairwise Before ↔ qs = sorted ps := by
  constructor
  · rintro ⟨hperm, hbefore⟩
    exact List.Perm.eq_of_pairwise' hbefore (pairwise_sorted ps)
      (hperm.trans (sorted_perm h).symm)
  · rintro rfl
    exact ⟨sorted_perm h, pairwise_sorted ps⟩

end Path

namespace Glob

theorem patterns_eq_error {pattern : Text} {fault : Fault} (h : patterns pattern = .error fault) :
    ∃ e, fault = .invalidPattern pattern e := by
  obtain ⟨alternative, -, h⟩ := Outcome.exists_of_mapM_eq_error h
  cases hp : Pattern.ofText alternative with
  | ok p =>
    rw [hp] at h
    cases h
  | error e =>
    rw [hp] at h
    exact ⟨e, (Except.error.inj h).symm⟩

theorem Selection.ofPatterns_eq_error {included : Text} {excluded : List Text} {fault : Fault}
    (h : ofPatterns included excluded = .error fault) :
    ∃ pattern ∈ included :: excluded, ∃ e, fault = .invalidPattern pattern e := by
  unfold ofPatterns at h
  rcases Outcome.bind_eq_error_iff.mp h with h | ⟨_, -, h⟩
  · exact ⟨included, .head excluded, patterns_eq_error h⟩
  · rcases Outcome.bind_eq_error_iff.mp h with h | ⟨_, -, h⟩
    · obtain ⟨pattern, hm, h⟩ := Outcome.exists_of_mapM_eq_error h
      exact ⟨pattern, .tail included hm, patterns_eq_error h⟩
    · cases h

end Glob

namespace Listing

variable {root : Path} {paths files : List Path} {included : Text} {excluded : List Text}

theorem ofPaths_eq_ok_iff :
    ofPaths root paths included excluded = .ok files ↔
      ∃ s, Glob.Selection.ofPatterns included excluded = .ok s ∧ below root s paths = files :=
  Outcome.map_eq_ok_iff

theorem ofPaths_eq_error_iff {fault : Fault} :
    ofPaths root paths included excluded = .error fault ↔
      Glob.Selection.ofPatterns included excluded = .error fault :=
  Outcome.map_eq_error_iff

theorem pairwise_of_ofPaths (h : ofPaths root paths included excluded = .ok files) :
    files.Pairwise Path.Before := by
  obtain ⟨s, -, rfl⟩ := ofPaths_eq_ok_iff.mp h
  exact Path.pairwise_sorted _

theorem mem_of_ofPaths (h : ofPaths root paths included excluded = .ok files) {p : Path}
    (hp : p ∈ files) : p ∈ paths := by
  obtain ⟨s, -, rfl⟩ := ofPaths_eq_ok_iff.mp h
  exact (List.mem_filter.mp (Path.mem_of_mem_sorted hp)).1

/-- Of paths in strict order, a listing keeps those it accepts. -/
theorem below_eq_filter (h : paths.Pairwise Path.Before) (s : Glob.Selection) :
    below root s paths = paths.filter fun p => (root.below? p).any s.accepts :=
  Path.sorted_eq_self (h.filter _)

end Listing

end Relayout
