import Relayout.Proofs.Transform.Preview

/-!
# Testing a document

A test passes when its file is listed and gets the command that is expected. A document passes when
all of its tests do, and otherwise the first test that does not pass is reported with what its file
got instead.
-/

namespace Relayout.Transform

open MemoryFs

variable {t : Transform} {fs tree : MemoryFs} {root : Path} {s : Glob.Selection}
  {expected : Command} {tests : List Command} {position : Nat} {fault : Fault}

/-- What a test asks for: its file is selected below the root and gets the command expected. -/
structure Passes (t : Transform) (s : Glob.Selection) (root : Path) (expected : Command) :
    Prop where
  listed : ∃ rest, root.below? expected.source = some rest ∧
    (∃ pattern ∈ s.included, pattern.acceptsPath rest) ∧
    ∀ pattern ∈ s.excluded, ¬ pattern.acceptsPath rest
  answered : ∃ command, t.commandFor? expected.source = some command ∧ command.Same expected

theorem passes_iff :
    t.Passes s root expected ↔
      ∃ command, t.preview? s root expected.source = some command ∧ command.Same expected := by
  have hlisted : (root.below? expected.source).any s.accepts ↔
      ∃ rest, root.below? expected.source = some rest ∧
        (∃ pattern ∈ s.included, pattern.acceptsPath rest) ∧
        ∀ pattern ∈ s.excluded, ¬ pattern.acceptsPath rest := by
    simp [Option.any_eq_true, Glob.Selection.accepts]
  simp only [preview?_eq_some_iff, hlisted]
  constructor
  · rintro ⟨hlisted, command, hcommand, hsame⟩
    exact ⟨command, ⟨hlisted, hcommand⟩, hsame⟩
  · rintro ⟨command, ⟨hlisted, hcommand⟩, hsame⟩
    exact ⟨hlisted, command, hcommand, hsame⟩

theorem meets_toList_iff {answer : Option Command} :
    meets expected answer.toList ↔ ∃ command, answer = some command ∧ command.Same expected := by
  cases answer with
  | none => simp [meets]
  | some command => simp [meets]

theorem meets_preview?_iff :
    meets expected (t.preview? s root expected.source).toList ↔ t.Passes s root expected := by
  rw [meets_toList_iff, passes_iff]

section

variable (hs : Glob.Selection.ofPatterns t.included t.excluded = .ok s)

include hs

theorem perform_checkFrom_cons_of_passes (h : t.Passes s root expected) :
    perform (t.checkFrom root position (expected :: tests)) fs =
      perform (t.checkFrom root (position + 1) tests) fs := by
  rw [checkFrom, perform_bind_ok (perform_plan_single hs), if_pos (meets_preview?_iff.mpr h),
    perform_bind_ok (perform_note _)]

theorem perform_checkFrom_cons_of_not_passes (h : ¬ t.Passes s root expected) :
    perform (t.checkFrom root position (expected :: tests)) fs =
      (.error (.testFailed position expected (t.preview? s root expected.source).toList), fs) := by
  rw [checkFrom, perform_bind_ok (perform_plan_single hs), if_neg (mt meets_preview?_iff.mp h)]
  rfl

theorem perform_checkFrom_eq_ok_iff {u : Unit} :
    perform (t.checkFrom root position tests) fs = (.ok u, tree) ↔
      (∀ expected ∈ tests, t.Passes s root expected) ∧ tree = fs := by
  induction tests generalizing position with
  | nil =>
    constructor
    · intro h
      cases h
      exact ⟨fun _ h => (List.not_mem_nil h).elim, rfl⟩
    · rintro ⟨-, rfl⟩
      rfl
  | cons expected tests ih =>
    rw [List.forall_mem_cons]
    by_cases hpasses : t.Passes s root expected
    · rw [perform_checkFrom_cons_of_passes hs hpasses, ih, and_iff_right hpasses]
    · rw [perform_checkFrom_cons_of_not_passes hs hpasses]
      simp [hpasses]

theorem perform_checkFrom_eq_error_iff :
    perform (t.checkFrom root position tests) fs = (.error fault, tree) ↔
      ∃ before expected after, tests = before ++ expected :: after ∧
        (∀ passed ∈ before, t.Passes s root passed) ∧ ¬ t.Passes s root expected ∧
        fault = .testFailed (position + before.length) expected
          (t.preview? s root expected.source).toList ∧ tree = fs := by
  induction tests generalizing position with
  | nil =>
    constructor
    · intro h
      cases h
    · rintro ⟨before, expected, after, heq, -⟩
      exact absurd heq.symm
        (List.append_ne_nil_of_right_ne_nil before (List.cons_ne_nil expected after))
  | cons first tests ih =>
    by_cases hfirst : t.Passes s root first
    · rw [perform_checkFrom_cons_of_passes hs hfirst, ih]
      constructor
      · rintro ⟨before, expected, after, rfl, hbefore, hexpected, rfl, rfl⟩
        refine ⟨first :: before, expected, after, rfl,
          List.forall_mem_cons.mpr ⟨hfirst, hbefore⟩, hexpected, ?_, rfl⟩
        rw [List.length_cons, Nat.add_assoc, Nat.add_comm 1]
      · rintro ⟨before, expected, after, heq, hbefore, hexpected, rfl, rfl⟩
        cases before with
        | nil =>
          obtain ⟨rfl, rfl⟩ := List.cons.inj heq
          exact absurd hfirst hexpected
        | cons passed before =>
          obtain ⟨rfl, rfl⟩ := List.cons.inj heq
          refine ⟨before, expected, after, rfl, (List.forall_mem_cons.mp hbefore).2, hexpected, ?_,
            rfl⟩
          rw [List.length_cons, Nat.add_assoc, Nat.add_comm 1]
    · rw [perform_checkFrom_cons_of_not_passes hs hfirst]
      constructor
      · intro h
        cases h
        exact ⟨[], first, tests, rfl, fun _ h => (List.not_mem_nil h).elim, hfirst, rfl, rfl⟩
      · rintro ⟨before, expected, after, heq, hbefore, hexpected, rfl, rfl⟩
        cases before with
        | nil =>
          obtain ⟨rfl, rfl⟩ := List.cons.inj heq
          rfl
        | cons passed before =>
          obtain ⟨rfl, -⟩ := List.cons.inj heq
          exact absurd (hbefore first (.head before)) hfirst

end

theorem perform_checkFrom_cons_error
    (h : Glob.Selection.ofPatterns t.included t.excluded = .error fault) :
    perform (t.checkFrom root position (expected :: tests)) fs = (.error fault, fs) := by
  have hlister : (Listing.lister root [expected.source] : Lister (StateM MemoryFs))
      t.included t.excluded fs = (.error fault, fs) :=
    congrArg (·, fs) (Listing.ofPaths_eq_error_iff.mpr h)
  rw [checkFrom, perform_bind_error (perform_plan_error hlister)]

theorem perform_check_eq_ok_iff {n : Nat} :
    perform (t.check root) fs = (.ok n, tree) ↔
      perform (t.checkFrom root 1 t.tests) fs = (.ok (), tree) ∧ n = t.tests.length := by
  rw [check, perform_bind_eq_ok_iff]
  constructor
  · rintro ⟨_, mid, h, hreturn⟩
    cases hreturn
    exact ⟨h, rfl⟩
  · rintro ⟨h, rfl⟩
    exact ⟨(), tree, h, rfl⟩

theorem perform_check_eq_error_iff :
    perform (t.check root) fs = (.error fault, tree) ↔
      perform (t.checkFrom root 1 t.tests) fs = (.error fault, tree) := by
  rw [check, perform_bind_eq_error_iff]
  constructor
  · rintro (h | ⟨_, _, -, hreturn⟩)
    · exact h
    · cases hreturn
  · exact .inl

theorem message_testFailed (position : Nat) (expected : Command) (answer : Option Command) :
    (Fault.testFailed position expected answer.toList).message =
      "Filemod test #" ++ toString position ++ " failed: expected " ++ expected.describe ++ ", got "
        ++ answer.elim "no commands" Command.describe := by
  cases answer with
  | none => rfl
  | some command => rfl

theorem Passes.kind_ne_create (h : t.Passes s root expected) : expected.kind ≠ .create := by
  obtain ⟨command, hcommand, hsame⟩ := h.answered
  intro hcreate
  cases expected with
  | create p =>
    rcases commandFor?_eq_some hcommand with ⟨rfl, -⟩ | ⟨rfl, -⟩ | ⟨rfl, -⟩
    · exact hsame
    · exact hsame
    · exact hsame
  | delete _ => cases hcreate
  | move _ _ => cases hcreate
  | copy _ _ => cases hcreate

/-- With patterns that can be read, a document passes exactly when all of its tests do, and then the
number of them is given. Otherwise the first test that does not pass is reported, by its position
and with what was expected and what its file got. No document that expects a creation passes. -/
theorem tests_decided (t : Transform) (fs : MemoryFs) (root : Path) :
    (∀ s, Glob.Selection.ofPatterns t.included t.excluded = .ok s →
      (∀ n tree, perform (t.check root) fs = (.ok n, tree) ↔
        (∀ expected ∈ t.tests, t.Passes s root expected) ∧ n = t.tests.length ∧ tree = fs) ∧
      ∀ fault tree, perform (t.check root) fs = (.error fault, tree) ↔
        ∃ before expected after, t.tests = before ++ expected :: after ∧
          (∀ passed ∈ before, t.Passes s root passed) ∧ ¬ t.Passes s root expected ∧
          fault = .testFailed (before.length + 1) expected
            (t.preview? s root expected.source).toList ∧
          fault.message = "Filemod test #" ++ toString (before.length + 1) ++ " failed: expected "
            ++ expected.describe ++ ", got "
            ++ (t.preview? s root expected.source).elim "no commands" Command.describe ∧
          tree = fs) ∧
    ∀ expected ∈ t.tests, expected.kind = .create →
      ∀ n tree, perform (t.check root) fs ≠ (.ok n, tree) := by
  refine ⟨?_, ?_⟩
  · intro s hs
    refine ⟨?_, ?_⟩
    · intro n tree
      rw [perform_check_eq_ok_iff, perform_checkFrom_eq_ok_iff hs, and_right_comm, and_assoc]
    · intro fault tree
      rw [perform_check_eq_error_iff, perform_checkFrom_eq_error_iff hs]
      constructor
      · rintro ⟨before, expected, after, htests, hbefore, hexpected, rfl, rfl⟩
        rw [Nat.add_comm]
        exact ⟨before, expected, after, htests, hbefore, hexpected, rfl,
          message_testFailed _ _ _, rfl⟩
      · rintro ⟨before, expected, after, htests, hbefore, hexpected, rfl, -, rfl⟩
        rw [Nat.add_comm]
        exact ⟨before, expected, after, htests, hbefore, hexpected, rfl, rfl⟩
  · intro expected hmem hcreate n tree h
    have hchecked := (perform_check_eq_ok_iff.mp h).1
    cases hs : Glob.Selection.ofPatterns t.included t.excluded with
    | ok s =>
      exact (((perform_checkFrom_eq_ok_iff hs).mp hchecked).1 expected hmem).kind_ne_create hcreate
    | error fault =>
      obtain ⟨first, tests, htests⟩ := List.exists_cons_of_ne_nil (List.ne_nil_of_mem hmem)
      rw [htests, perform_checkFrom_cons_error hs] at hchecked
      cases hchecked

def movePage : Command := .move (.ofString "/site/pages/a.ts") (.ofString "/site//app/./a.ts")

def copyPage : Command := .copy (.ofString "/site/pages/b.ts") (.ofString "/site/app/b.ts")

/-- A document that moves pages, though its second test expects a copy. -/
def testedMover : Transform := { mover pagesToApp with tests := [movePage, copyPage] }

/-- The first test passes, its target being written in another way, and the second is reported. -/
theorem second_test_reported :
    perform (testedMover.check (.ofString "/site")) site =
      (.error (.testFailed 2 copyPage
        [.move (.ofString "/site/pages/b.ts") (.ofString "/site/app/b.ts")]), site) := by
  obtain ⟨s, hs, hlisted⟩ := Listing.ofPaths_eq_ok_iff.mp listing_site
  rw [Listing.below_eq_filter site.pairwise_paths] at hlisted
  have hpreview : ∀ p ∈ [.ofString "/site/pages/a.ts", .ofString "/site/pages/b.ts"],
      testedMover.preview? s (.ofString "/site") p = testedMover.commandFor? p := by
    intro p hp
    rw [← hlisted] at hp
    exact if_pos (List.mem_filter.mp hp).2
  have hfirst : testedMover.preview? s (.ofString "/site") movePage.source =
      some (.move (.ofString "/site/pages/a.ts") (.ofString "/site/app/a.ts")) :=
    (hpreview _ (.head _)).trans (by decide +kernel)
  have hsecond : testedMover.preview? s (.ofString "/site") copyPage.source =
      some (.move (.ofString "/site/pages/b.ts") (.ofString "/site/app/b.ts")) :=
    (hpreview _ (.tail _ (.head _))).trans (by decide +kernel)
  have hpasses : testedMover.Passes s (.ofString "/site") movePage :=
    passes_iff.mpr ⟨_, hfirst, by decide⟩
  have hfails : ¬ testedMover.Passes s (.ofString "/site") copyPage := by
    rw [passes_iff, hsecond]
    rintro ⟨_, ⟨⟩, hsame⟩
    exact hsame
  refine (((tests_decided testedMover site (.ofString "/site")).1 s hs).2 _ _).mpr
    ⟨[movePage], copyPage, [], rfl, List.forall_mem_singleton.mpr hpasses, hfails, ?_, ?_, rfl⟩
  · rw [hsecond]
    rfl
  · rw [hsecond]
    rfl

end Relayout.Transform
