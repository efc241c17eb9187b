import Relayout.Proofs.Memory.Paths

/-!
# What becomes of the contents

Moves and copies make no content up, and lose one only by writing over the last file that holds it.
Where every file is put at a free place, nothing is lost.
-/

namespace Relayout

namespace MemoryFs

open Execution

variable {fs mid tree : MemoryFs} {c : Command} {cs : List Command} {content : Bytes} {p : Path}

def Holds (fs : MemoryFs) (content : Bytes) : Prop := ∃ p, fs.read? p = some content

instance (fs : MemoryFs) (content : Bytes) : Decidable (fs.Holds content) :=
  decidable_of_iff (∃ e ∈ fs.files.entries, e.2 = content)
    ⟨fun ⟨e, he, hc⟩ => ⟨e.1, (PathMap.get?_of_mem he).trans (congrArg some hc)⟩,
      fun ⟨_, hp⟩ => (PathMap.exists_mem_of_get? hp).imp fun _ h => ⟨h.1, h.2.2⟩⟩

/-- A command of the batch writes over the only file that holds the content by then. -/
def Overwritten (fs : MemoryFs) (cs : List Command) (content : Bytes) : Prop :=
  ∃ before c after mid, cs = before ++ c :: after ∧ Runs fs before mid ∧ mid.Holds content ∧
    ∃ p ∈ c.target?, ∀ q, mid.read? q = some content → q.Same p

/-- A place that is free once some commands were carried out: none of them fills it, and there was
no file or one of them takes it away. -/
def Free (fs : MemoryFs) (cs : List Command) (p : Path) : Prop :=
  (∀ c ∈ cs, ∀ q ∈ c.target?, ¬ q.Same p) ∧
    (fs.read? p = none ∨ ∃ c ∈ cs, c.consumes ∧ c.source.Same p)

instance (fs : MemoryFs) (cs : List Command) (p : Path) : Decidable (Free fs cs p) :=
  inferInstanceAs (Decidable (_ ∧ _))

def Vacant (fs : MemoryFs) (cs : List Command) : Prop :=
  ∀ i : Fin cs.length, ∀ p ∈ cs[i].target?, Free fs (cs.take i) p

instance (fs : MemoryFs) (cs : List Command) : Decidable (Vacant fs cs) :=
  inferInstanceAs (Decidable (∀ i : Fin cs.length, ∀ p ∈ cs[i].target?, Free fs (cs.take i) p))

/-- After a move or copy, the contents are those that were held elsewhere than at its target. -/
theorem Executes.holds_iff (h : Executes fs c (.ok ()) mid) (hp : p ∈ c.target?) :
    mid.Holds content ↔ ∃ q, ¬ q.Same p ∧ fs.read? q = some content := by
  have hapart := h.target_apart hp
  have htarget : mid.read? p = fs.read? c.source := by
    rw [h.read?_eq, Command.effect_target hp hapart]
  have hother : ∀ q, ¬ c.source.Same q → ¬ q.Same p → mid.read? q = fs.read? q := by
    intro q hs hq
    rw [h.read?_eq]
    refine Command.effect_of_apart hs ?_
    intro r hr hsame
    rw [Option.mem_unique hr hp] at hsame
    exact hq hsame.symm
  constructor
  · rintro ⟨q, hq⟩
    by_cases hqp : q.Same p
    · rw [read?_congr hqp, htarget] at hq
      exact ⟨c.source, hapart, hq⟩
    by_cases hqs : c.source.Same q
    -- The source still holds something only if it was copied, and then it held that before.
    · rw [← read?_congr hqs, h.read?_eq] at hq
      cases hconsumes : c.consumes with
      | true =>
        rw [Command.effect_source_consumed hconsumes] at hq
        cases hq
      | false =>
        have hself : ∀ r ∈ c.target?, ¬ r.Same c.source :=
          fun r hr hsame => h.target_apart hr hsame.symm
        rw [Command.effect_source_kept (Command.kind_ne_create hp) hconsumes hself] at hq
        exact ⟨c.source, hapart, hq⟩
    · rw [hother q hqs hqp] at hq
      exact ⟨q, hqp, hq⟩
  · rintro ⟨q, hqp, hq⟩
    by_cases hqs : c.source.Same q
    · rw [← read?_congr hqs] at hq
      exact ⟨p, htarget.trans hq⟩
    · exact ⟨q, (hother q hqs hqp).trans hq⟩

theorem Runs.holds_of_holds (hrun : Runs fs cs tree) (hcs : ∀ c ∈ cs, c.target?.isSome)
    (h : tree.Holds content) : fs.Holds content := by
  induction hrun with
  | done _ => exact h
  | @step fs mid tree c cs hc _ ih =>
    obtain ⟨p, hp⟩ := Option.isSome_iff_exists.mp (hcs c (.head cs))
    have hmid := ih (fun d hd => hcs d (.tail c hd)) h
    obtain ⟨q, -, hq⟩ := ((executes_of_perform hc).holds_iff hp).mp hmid
    exact ⟨q, hq⟩

theorem Runs.eq {tree' : MemoryFs} (h : Runs fs cs tree) (h' : Runs fs cs tree') :
    tree = tree' := by
  have hperform := perform_executeAll_eq_ok_iff.mpr ⟨h, rfl⟩
  rw [perform_executeAll_eq_ok_iff.mpr ⟨h', rfl⟩] at hperform
  exact (Prod.mk.inj hperform).2.symm

theorem Runs.not_holds_of_overwritten (hrun : Runs fs cs tree)
    (hcs : ∀ c ∈ cs, c.target?.isSome) (h : Overwritten fs cs content) : ¬ tree.Holds content := by
  obtain ⟨before, c, after, mid, rfl, hbefore, -, p, hp, honly⟩ := h
  obtain ⟨mid', hbefore', hrest⟩ := runs_append_iff.mp hrun
  rw [hbefore'.eq hbefore] at hrest
  cases hrest with
  | step hc hafter =>
    intro htree
    have hnext := hafter.holds_of_holds (fun d hd => hcs d (by simp [hd])) htree
    obtain ⟨q, hqp, hq⟩ := ((executes_of_perform hc).holds_iff hp).mp hnext
    exact hqp (honly q hq)

theorem Runs.overwritten_of_not_holds (hrun : Runs fs cs tree) (hcs : ∀ c ∈ cs, c.target?.isSome)
    (hheld : fs.Holds content) (h : ¬ tree.Holds content) : Overwritten fs cs content := by
  induction hrun with
  | done _ => exact absurd hheld h
  | @step fs mid tree c cs hc hrest ih =>
    -- Either the content outlives the first command, or that command wrote over its last file.
    by_cases hmid : mid.Holds content
    · obtain ⟨before, d, after, mid', rfl, hbefore, hd⟩ :=
        ih (fun d hd => hcs d (.tail c hd)) hmid h
      exact ⟨c :: before, d, after, mid', rfl, .step hc hbefore, hd⟩
    · obtain ⟨p, hp⟩ := Option.isSome_iff_exists.mp (hcs c (.head cs))
      refine ⟨[], c, cs, fs, rfl, .done fs, hheld, p, hp, ?_⟩
      intro q hq
      by_contra hqp
      exact hmid (((executes_of_perform hc).holds_iff hp).mpr ⟨q, hqp, hq⟩)

theorem Runs.read?_eq_none (hrun : Runs fs cs tree) (hcs : ∀ c ∈ cs, c.kind ≠ .create)
    (h : Free fs cs p) : tree.read? p = none := by
  obtain ⟨hunfilled, h⟩ := h
  induction hrun with
  | done _ =>
    rcases h with h | ⟨c, ⟨⟩, -⟩
    exact h
  | @step fs mid tree c cs hc _ ih =>
    have hstep := executes_of_perform hc
    refine ih (fun d hd => hcs d (.tail c hd)) (fun d hd => hunfilled d (.tail c hd)) ?_
    rcases h with h | ⟨d, hd, hconsumes, hsame⟩
    -- A place without a file stays free: the command is not about it and does not fill it.
    · left
      have hapart : ¬ c.source.Same p := by
        intro hsame
        obtain ⟨content, hcontent⟩ := hstep.exists_source (hcs c (.head cs))
        rw [read?_congr hsame, h] at hcontent
        cases hcontent
      rw [hstep.read?_eq, Command.effect_of_apart hapart (hunfilled c (.head cs)), h]
    rcases List.mem_cons.mp hd with rfl | hd
    · left
      rw [← read?_congr hsame, hstep.read?_eq, Command.effect_source_consumed hconsumes]
    · exact .inr ⟨d, hd, hconsumes, hsame⟩

theorem Vacant.not_overwritten (h : Vacant fs cs) (hcs : ∀ c ∈ cs, c.target?.isSome) :
    ¬ Overwritten fs cs content := by
  rintro ⟨before, c, after, mid, rfl, hbefore, ⟨q, hq⟩, p, hp, honly⟩
  have hfree := h ⟨before.length, by simp⟩ p (by simpa using hp)
  simp only [List.take_left] at hfree
  have hcreate : ∀ d ∈ before, d.kind ≠ .create := by
    intro d hd
    obtain ⟨r, hr⟩ := Option.isSome_iff_exists.mp (hcs d (by simp [hd]))
    exact Command.kind_ne_create hr
  have hnone := hbefore.read?_eq_none hcreate hfree
  rw [read?_congr (honly q hq), hnone] at hq
  cases hq

end MemoryFs

end Relayout
