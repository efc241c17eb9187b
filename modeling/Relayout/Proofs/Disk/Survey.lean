import Mathlib.Data.List.Flatten
import Relayout.Disk.Survey
import Relayout.Proofs.Outcome

/-!
# What a survey holds, and what it lists

What a survey holds at a place is found through its directories only. The files that it lists are
the paths of the places that hold one, in the order of the survey, unless something could not be
found out: then it is the first such failure, in the same order, that is told instead.
-/

namespace Relayout.Survey

/-- Whether a survey holds something at a place that only directories lead to. -/
inductive Holds : Survey → Place → Survey → Prop
  | here {s : Survey} : Holds s [] s
  | inside {entries : List (Bytes × Survey)} {failure : Option SystemError} {name : Bytes}
      {s t : Survey} {place : Place} (hmem : (name, s) ∈ entries) (h : Holds s place t) :
      Holds (.dir entries failure) (name :: place) t

/-- What went wrong at the top of a survey itself. -/
def failure? : Survey → Option (Operation × SystemError)
  | file => none
  | link => none
  | dir _ failure => failure.map (.readDirectory, ·)
  | unknown e => some (.stat, e)

/-- Whether every directory was read to its end, and every entry looked at. -/
def Readable (s : Survey) : Prop := ∀ place t, s.Holds place t → t.failure? = none

mutual

def places : Survey → List Place
  | file => [[]]
  | link => []
  | dir entries _ => placesIn entries
  | unknown _ => []

def placesIn : List (Bytes × Survey) → List Place
  | [] => []
  | (name, s) :: rest => s.places.map (name :: ·) ++ placesIn rest

end

mutual

/-- The faults that the failures in a survey make, in its order. -/
def faults (p : Path) : Survey → List Fault
  | file => []
  | link => []
  | dir entries failure => faultsIn p entries ++ (failure.map (.io .readDirectory p)).toList
  | unknown e => [.io .stat p e]

def faultsIn (dir : Path) : List (Bytes × Survey) → List Fault
  | [] => []
  | (name, s) :: rest => s.faults (dir.entry name) ++ faultsIn dir rest

end

variable {s t : Survey} {entries : List (Bytes × Survey)} {failure : Option SystemError} {p : Path}
  {place : Place} {name : Bytes} {fault : Fault}

theorem induction {motive : Survey → Prop} (file : motive .file) (link : motive .link)
    (dir : ∀ entries failure, (∀ e ∈ entries, motive e.2) → motive (.dir entries failure))
    (unknown : ∀ e, motive (.unknown e)) (s : Survey) : motive s :=
  @Survey.rec motive (fun entries => ∀ e ∈ entries, motive e.2) (fun e => motive e.2)
    file link dir unknown (fun _ h => absurd h List.not_mem_nil)
    (fun _ _ he hrest => List.forall_mem_cons.mpr ⟨he, hrest⟩) (fun _ _ h => h) s

theorem placesIn_eq (entries : List (Bytes × Survey)) :
    placesIn entries = entries.flatMap fun e => e.2.places.map (e.1 :: ·) := by
  induction entries with
  | nil => rfl
  | cons e rest ih => rw [placesIn, ih, List.flatMap_cons]

theorem faultsIn_eq (p : Path) (entries : List (Bytes × Survey)) :
    faultsIn p entries = entries.flatMap fun e => e.2.faults (p.entry e.1) := by
  induction entries with
  | nil => rfl
  | cons e rest ih => rw [faultsIn, ih, List.flatMap_cons]

/-! ## What is held -/

theorem holds_nil_iff : s.Holds [] t ↔ s = t := by
  constructor
  · intro h
    cases h
    rfl
  · rintro rfl
    exact .here

theorem holds_cons_iff : s.Holds (name :: place) t ↔
    ∃ entries failure u, s = .dir entries failure ∧ (name, u) ∈ entries ∧ u.Holds place t := by
  constructor
  · intro h
    cases h with
    | inside hmem h => exact ⟨_, _, _, rfl, hmem, h⟩
  · rintro ⟨entries, failure, u, rfl, hmem, h⟩
    exact .inside hmem h

theorem Readable.inside (h : (dir entries failure).Readable) (hmem : (name, s) ∈ entries) :
    s.Readable :=
  fun place t ht => h (name :: place) t (.inside hmem ht)

theorem mem_places_iff : place ∈ s.places ↔ s.Holds place .file := by
  induction s using induction generalizing place with
  | file => cases place <;> simp [places, holds_nil_iff, holds_cons_iff]
  | link => cases place <;> simp [places, holds_nil_iff, holds_cons_iff]
  | unknown e => cases place <;> simp [places, holds_nil_iff, holds_cons_iff]
  | dir entries failure ih =>
    rw [places, placesIn_eq]
    cases place with
    | nil => simp [holds_nil_iff]
    | cons name place =>
      rw [List.mem_flatMap, holds_cons_iff]
      constructor
      · rintro ⟨⟨name, u⟩, hmem, hplace⟩
        obtain ⟨inner, hinner, heq⟩ := List.mem_map.mp hplace
        cases heq
        exact ⟨entries, failure, u, rfl, hmem, (ih _ hmem).mp hinner⟩
      · rintro ⟨_, _, u, heq, hmem, h⟩
        cases heq
        exact ⟨(name, u), hmem, List.mem_map_of_mem ((ih _ hmem).mpr h)⟩

/-! ## What is listed -/

/-- What is wrong at the top is told there, what is wrong further in by the entries. -/
theorem mem_faults_dir_iff : fault ∈ (dir entries failure).faults p ↔
    (∃ e ∈ entries, fault ∈ e.2.faults (p.entry e.1)) ∨
      ∃ e, failure = some e ∧ fault = .io .readDirectory p e := by
  rw [faults, faultsIn_eq, List.mem_append, List.mem_flatMap]
  cases failure <;> simp

theorem mem_faults_iff : fault ∈ s.faults p ↔ ∃ place t operation e, s.Holds place t ∧
    t.failure? = some (operation, e) ∧ fault = .io operation (place.foldl Path.entry p) e := by
  constructor
  · intro h
    induction s using induction generalizing p with
    | file => cases h
    | link => cases h
    | unknown e => exact ⟨[], .unknown e, .stat, e, .here, rfl, List.mem_singleton.mp h⟩
    | dir entries failure ih =>
      rcases mem_faults_dir_iff.mp h with ⟨⟨name, u⟩, hmem, hfault⟩ | ⟨e, rfl, rfl⟩
      · obtain ⟨place, t, operation, e, ht, hfailure, heq⟩ := ih _ hmem hfault
        exact ⟨name :: place, t, operation, e, .inside hmem ht, hfailure, heq⟩
      · exact ⟨[], _, .readDirectory, e, .here, rfl, rfl⟩
  · rintro ⟨place, t, operation, e, h, hfailure, rfl⟩
    induction h generalizing p with
    | @here s =>
      cases s with
      | file => cases hfailure
      | link => cases hfailure
      | unknown e =>
        cases hfailure
        exact List.mem_singleton_self _
      | dir entries failure =>
        obtain ⟨e, rfl, heq⟩ := Option.map_eq_some_iff.mp hfailure
        cases heq
        exact mem_faults_dir_iff.mpr (.inr ⟨e, rfl, rfl⟩)
    | inside hmem _ ih => exact mem_faults_dir_iff.mpr (.inl ⟨_, hmem, ih hfailure⟩)

theorem faults_eq_nil_iff : s.faults p = [] ↔ s.Readable := by
  rw [List.eq_nil_iff_forall_not_mem]
  constructor
  · intro h place t ht
    rw [Option.eq_none_iff_forall_not_mem]
    rintro ⟨operation, e⟩ hfailure
    exact h _ (mem_faults_iff.mpr ⟨place, t, operation, e, ht, hfailure, rfl⟩)
  · intro h fault hfault
    obtain ⟨place, t, operation, e, ht, hfailure, -⟩ := mem_faults_iff.mp hfault
    rw [h place t ht] at hfailure
    cases hfailure

/-- The files at these places, unless there is a fault. -/
def outcome (p : Path) (places : List Place) : List Fault → Except Fault (List Path)
  | [] => .ok (places.map fun place => place.foldl Path.entry p)
  | fault :: _ => .error fault

theorem files_eq (p : Path) (s : Survey) : s.files p = outcome p s.places (s.faults p) := by
  induction s using induction generalizing p with
  | file => rfl
  | link => rfl
  | unknown e => rfl
  | dir entries failure ih =>
    have hin : filesIn p entries = outcome p (placesIn entries) (faultsIn p entries) := by
      induction entries with
      | nil => rfl
      | cons e rest ihrest =>
        obtain ⟨name, u⟩ := e
        obtain ⟨hu, hrest⟩ := List.forall_mem_cons.mp ih
        have hfirst := hu (p.entry name)
        rw [filesIn, hfirst, ihrest hrest, faultsIn, placesIn]
        cases u.faults (p.entry name) with
        | cons fault faults => rfl
        | nil =>
          cases faultsIn p rest with
          | cons fault faults => rfl
          | nil => simp [outcome, bind, Except.bind, pure, Except.pure, Function.comp_def]
    rw [files, hin, faults, places]
    cases faultsIn p entries with
    | cons fault faults => rfl
    | nil => cases failure <;> rfl

theorem files_of_readable (h : s.Readable) (p : Path) :
    s.files p = .ok (s.places.map fun place => place.foldl Path.entry p) := by
  rw [files_eq, faults_eq_nil_iff.mpr h]
  rfl

theorem files_of_not_readable (h : ¬ s.Readable) (p : Path) :
    ∃ place t operation e, s.Holds place t ∧ t.failure? = some (operation, e) ∧
      s.files p = .error (.io operation (place.foldl Path.entry p) e) := by
  have hne : s.faults p ≠ [] := fun hnil => h (faults_eq_nil_iff.mp hnil)
  obtain ⟨fault, faults, hfaults⟩ := List.exists_cons_of_ne_nil hne
  have hfault : fault ∈ s.faults p := hfaults ▸ List.mem_cons_self
  obtain ⟨place, t, operation, e, ht, hfailure, rfl⟩ := mem_faults_iff.mp hfault
  refine ⟨place, t, operation, e, ht, hfailure, ?_⟩
  rw [files_eq, hfaults]
  rfl

/-! ## Surveys without failures -/

theorem ofEntries_eq (entries : List (Bytes × Node)) :
    ofEntries entries = entries.map fun e => (e.1, ofNode e.2) := by
  induction entries with
  | nil => rfl
  | cons e rest ih => rw [ofEntries, ih, List.map_cons]

theorem readable_ofNode (n : Node) : (ofNode n).Readable := by
  intro place
  induction place generalizing n with
  | nil =>
    intro t ht
    obtain rfl := holds_nil_iff.mp ht
    cases n <;> rfl
  | cons name place ih =>
    intro t ht
    obtain ⟨entries, failure, u, heq, hmem, hu⟩ := holds_cons_iff.mp ht
    cases n with
    | file content => cases heq
    | link target => cases heq
    | dir nodes =>
      cases heq
      rw [ofEntries_eq] at hmem
      obtain ⟨e, -, he⟩ := List.mem_map.mp hmem
      cases he
      exact ih e.2 t hu

end Relayout.Survey
