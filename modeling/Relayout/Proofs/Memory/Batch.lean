import Relayout.Proofs.Memory.Effect

/-!
# Batches without conflicts

In a batch whose commands are about different files, and fill places that no command is about, no
command reads what another has changed. What such a batch leaves is read off the tree it began with,
so the order of its commands does not matter.
-/

namespace Relayout.MemoryFs

open Execution

variable {fs mid tree : MemoryFs} {c : Command} {cs ds : List Command}

/-- Deletions, moves and copies that do not touch each other's files. -/
structure ConflictFree (cs : List Command) : Prop where
  no_create : ∀ c ∈ cs, c.kind ≠ .create
  sources : cs.Pairwise fun c d => ¬ c.source.Same d.source
  targets : cs.Pairwise fun c d =>
    ∀ p ∈ c.target?, ∀ q ∈ d.target?, ¬ p.Same q
  apart : ∀ c ∈ cs, ∀ d ∈ cs, ∀ p ∈ c.target?, ¬ p.Same d.source

instance (cs : List Command) : Decidable (ConflictFree cs) :=
  decidable_of_iff
    ((∀ c ∈ cs, c.kind ≠ .create) ∧ (cs.Pairwise fun c d => ¬ c.source.Same d.source) ∧
      (cs.Pairwise fun c d => ∀ p ∈ c.target?, ∀ q ∈ d.target?, ¬ p.Same q) ∧
      ∀ c ∈ cs, ∀ d ∈ cs, ∀ p ∈ c.target?, ¬ p.Same d.source)
    ⟨fun ⟨hc, hs, ht, ha⟩ => ⟨hc, hs, ht, ha⟩,
      fun h => ⟨h.no_create, h.sources, h.targets, h.apart⟩⟩

/-- What a batch without conflicts makes of a tree. -/
structure Settled (fs tree : MemoryFs) (cs : List Command) : Prop where
  filled : ∀ c ∈ cs, ∀ p ∈ c.target?,
    ∃ content, fs.read? c.source = some content ∧ tree.read? p = some content
  consumed : ∀ c ∈ cs, c.consumes → tree.read? c.source = none
  kept : ∀ c ∈ cs, c.consumes = false → tree.read? c.source = fs.read? c.source
  others : ∀ p, (∀ c ∈ cs, ¬ c.source.Same p) → (∀ c ∈ cs, ∀ q ∈ c.target?, ¬ q.Same p) →
    tree.read? p = fs.read? p

theorem ConflictFree.tail (h : ConflictFree (c :: cs)) : ConflictFree cs where
  no_create d hd := h.no_create d (.tail c hd)
  sources := (List.pairwise_cons.mp h.sources).2
  targets := (List.pairwise_cons.mp h.targets).2
  apart d hd e he := h.apart d (.tail c hd) e (.tail c he)

theorem ConflictFree.perm (h : ConflictFree cs) (hperm : cs.Perm ds) : ConflictFree ds where
  no_create c hc := h.no_create c (hperm.mem_iff.mpr hc)
  sources := (hperm.pairwise_iff fun hn hs => hn hs.symm).mp h.sources
  targets := (hperm.pairwise_iff fun hn p hp q hq hs => hn q hq p hp hs.symm).mp h.targets
  apart c hc d hd := h.apart c (hperm.mem_iff.mpr hc) d (hperm.mem_iff.mpr hd)

theorem ConflictFree.source_untouched (h : ConflictFree (c :: cs)) (hc : Executes fs c (.ok ()) mid)
    {d : Command} (hd : d ∈ cs) : mid.read? d.source = fs.read? d.source := by
  rw [hc.read?_eq]
  refine Command.effect_of_apart ((List.pairwise_cons.mp h.sources).1 d hd) ?_
  intro q hq
  exact h.apart c (.head cs) d (.tail c hd) q hq

theorem ConflictFree.source_left (h : ConflictFree (c :: cs)) (hs : Settled mid tree cs) :
    tree.read? c.source = mid.read? c.source := by
  refine hs.others c.source ?_ ?_
  · intro d hd hsame
    exact (List.pairwise_cons.mp h.sources).1 d hd hsame.symm
  · intro d hd q hq
    exact h.apart d (.tail c hd) c (.head cs) q hq

theorem ConflictFree.target_left (h : ConflictFree (c :: cs)) (hs : Settled mid tree cs) {p : Path}
    (hp : p ∈ c.target?) : tree.read? p = mid.read? p := by
  refine hs.others p ?_ ?_
  · intro d hd hsame
    exact h.apart c (.head cs) d (.tail c hd) p hp hsame.symm
  · intro d hd q hq hsame
    exact (List.pairwise_cons.mp h.targets).1 d hd p hp q hq hsame.symm

/-- A command before a batch that has settled: what it did is still there, and it kept the others
from nothing. -/
theorem Settled.cons (h : ConflictFree (c :: cs)) (hc : Executes fs c (.ok ()) mid)
    (hs : Settled mid tree cs) : Settled fs tree (c :: cs) := by
  have hcreate := h.no_create c (.head cs)
  have hself : ∀ p ∈ c.target?, ¬ p.Same c.source := h.apart c (.head cs) c (.head cs)
  refine ⟨?_, ?_, ?_, ?_⟩
  · intro d hd p hp
    rcases List.mem_cons.mp hd with rfl | hd
    · obtain ⟨content, hcontent⟩ := hc.exists_source hcreate
      refine ⟨content, hcontent, ?_⟩
      have hapart : ¬ d.source.Same p := fun hsame => hself p hp hsame.symm
      rw [h.target_left hs hp, hc.read?_eq, Command.effect_target hp hapart, hcontent]
    · obtain ⟨content, hcontent, hfilled⟩ := hs.filled d hd p hp
      rw [h.source_untouched hc hd] at hcontent
      exact ⟨content, hcontent, hfilled⟩
  · intro d hd hconsumes
    rcases List.mem_cons.mp hd with rfl | hd
    · rw [h.source_left hs, hc.read?_eq, Command.effect_source_consumed hconsumes]
    · exact hs.consumed d hd hconsumes
  · intro d hd hkeeps
    rcases List.mem_cons.mp hd with rfl | hd
    · rw [h.source_left hs, hc.read?_eq, Command.effect_source_kept hcreate hkeeps hself]
    · rw [hs.kept d hd hkeeps, h.source_untouched hc hd]
  · intro p hsources htargets
    rw [hs.others p (fun d hd => hsources d (.tail c hd)) (fun d hd => htargets d (.tail c hd)),
      hc.read?_eq]
    exact Command.effect_of_apart (hsources c (.head cs)) (htargets c (.head cs))

theorem Runs.settled (hrun : Runs fs cs tree) (h : ConflictFree cs) : Settled fs tree cs := by
  -- From the back: what the rest settles on the tree after `c` is what it settles on `fs`.
  induction hrun with
  | done fs =>
    refine ⟨?_, ?_, ?_, fun _ _ _ => rfl⟩
    · rintro c ⟨⟩
    · rintro c ⟨⟩
    · rintro c ⟨⟩
  | step hc _ ih => exact (ih h.tail).cons h (executes_of_perform hc)

theorem Settled.read?_eq {tree' : MemoryFs} (hs : Settled fs tree cs) (hs' : Settled fs tree' ds)
    (hperm : ds.Perm cs) (p : Path) : tree'.read? p = tree.read? p := by
  -- Every place is a target, a source, or neither, and which of these does not depend on the order.
  by_cases ht : ∃ c ∈ cs, ∃ q ∈ c.target?, q.Same p
  · obtain ⟨c, hc, q, hq, hsame⟩ := ht
    obtain ⟨content, hcontent, hfilled⟩ := hs.filled c hc q hq
    obtain ⟨content', hcontent', hfilled'⟩ := hs'.filled c (hperm.mem_iff.mpr hc) q hq
    rw [← read?_congr hsame, ← read?_congr hsame, hfilled, hfilled', ← hcontent, ← hcontent']
  by_cases hc : ∃ c ∈ cs, c.source.Same p
  · obtain ⟨c, hc, hsame⟩ := hc
    have hc' := hperm.mem_iff.mpr hc
    rw [← read?_congr hsame, ← read?_congr hsame]
    cases hconsumes : c.consumes with
    | true => rw [hs.consumed c hc hconsumes, hs'.consumed c hc' hconsumes]
    | false => rw [hs.kept c hc hconsumes, hs'.kept c hc' hconsumes]
  · have hsource : ∀ c ∈ cs, ¬ c.source.Same p := fun c hm hsame => hc ⟨c, hm, hsame⟩
    have htarget : ∀ c ∈ cs, ∀ q ∈ c.target?, ¬ q.Same p :=
      fun c hm q hq hsame => ht ⟨c, hm, q, hq, hsame⟩
    rw [hs.others p hsource htarget,
      hs'.others p (fun c hm => hsource c (hperm.mem_iff.mp hm))
        (fun c hm => htarget c (hperm.mem_iff.mp hm))]

/-- A batch without conflicts that succeeds settles, and so does every reordering of it that
succeeds, with the same files. -/
theorem executeAll_settled {summary : Summary} (h : ConflictFree cs)
    (hrun : perform (executeAll cs) fs = (.ok summary, tree)) :
    Settled fs tree cs ∧
      ∀ ds summary' tree', ds.Perm cs → perform (executeAll ds) fs = (.ok summary', tree') →
        ∀ p, tree'.read? p = tree.read? p := by
  have hs := (perform_executeAll_eq_ok_iff.mp hrun).1.settled h
  refine ⟨hs, ?_⟩
  intro ds summary' tree' hperm hrun' p
  have hs' := (perform_executeAll_eq_ok_iff.mp hrun').1.settled (h.perm hperm.symm)
  exact hs.read?_eq hs' hperm p

def desk : MemoryFs :=
  ((empty.withFile (.ofString "/r/a") [1]).withFile (.ofString "/r/b") [2]).withFile
    (.ofString "/r/c") [3]

def tidying : List Command :=
  [.delete (.ofString "/r/a"), .move (.ofString "/r/b") (.ofString "/r/d/b"),
    .copy (.ofString "/r/c") (.ofString "/r/d/c")]

theorem settled_desk : ConflictFree tidying ∧ ∃ tree,
    perform (executeAll tidying) desk = (.ok ⟨1, 1, 1, 0⟩, tree) ∧ Settled desk tree tidying ∧
      ∃ tree', perform (executeAll tidying.reverse) desk = (.ok ⟨1, 1, 1, 0⟩, tree') ∧
        ∀ p, tree'.read? p = tree.read? p := by
  have hfree : ConflictFree tidying := by decide
  have hrun : (perform (executeAll tidying) desk).1 = .ok ⟨1, 1, 1, 0⟩ := by decide +kernel
  have hback : (perform (executeAll tidying.reverse) desk).1 = .ok ⟨1, 1, 1, 0⟩ := by
    decide +kernel
  obtain ⟨hsettled, hsame⟩ := executeAll_settled hfree (Prod.ext hrun rfl)
  exact ⟨hfree, _, Prod.ext hrun rfl, hsettled, _, Prod.ext hback rfl,
    hsame _ _ _ (List.reverse_perm tidying) (Prod.ext hback rfl)⟩

end Relayout.MemoryFs
