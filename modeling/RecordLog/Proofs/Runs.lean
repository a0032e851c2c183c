import Mathlib
import RecordLog.Proofs.Outcomes

/-!
# Runs of a writer

A `Step` is one operation of a writer together with what keeps its calls from succeeding. A run is
a list of steps, and `run` tells which payloads were appended, and where the log ended after each.
`Follows` says what all steps preserve: the log has grown, the chunks are still there, and the
writer still has the same settings, index and watermark.
-/

namespace RecordLog

open Record Segment

structure Step where
  action : Action
  circumstances : Circumstances := {}

/-- Carries out an operation. The next one finds all calls succeed again. -/
def Step.take (step : Step) (s : Writer × World) : Except Stop (Option Nat) × (Writer × World) :=
  let (answer, (writer, w)) :=
    step.action.perform.attempt (s.1, s.2.under s.1.store step.circumstances)
  (answer, (writer, w.under writer.store {}))

/-- The payloads that steps append, each with the position that was told, and what the steps leave
behind. -/
def run : List Step → Writer × World → List (Bytes × Nat) × (Writer × World)
  | [], s => ([], s)
  | step :: steps, s =>
    let (answer, s) := step.take s
    let (appended, s) := run steps s
    (step.action.appended answer ++ appended, s)

variable {q : Place} {l l' : Log} {c c' : Catalog} {writer : Writer} {w : World}
  {s s' s'' : Writer × World}

/-- A writer between two operations, with nothing made to fail. -/
structure Settled (q : Place) (l : Log) (c : Catalog) (s : Writer × World) : Prop where
  carries : Writer.Carries q l c s.1 s.2
  compressor : s.1.config.compressor.Lawful
  cipher : s.1.config.cipher.Lawful
  calm : s.2.Calm
  willing : ∀ store, s.2.stores[s.1.store]? = some store → store.failCommits = false

/-- A later state of the same writer. -/
structure Follows (q : Place) (l : Log) (c : Catalog) (s : Writer × World) (l' : Log)
    (c' : Catalog) (s' : Writer × World) : Prop where
  settled : Settled q l' c' s'
  grows : l.Grows l'
  entries : c.chunks.entries <+: c'.chunks.entries
  config : s'.1.config = s.1.config
  store : s'.1.store = s.1.store
  mark : s'.1.mark = s.1.mark
  inFile : ∀ store store', s.2.stores[s.1.store]? = some store →
    s'.2.stores[s.1.store]? = some store' → store'.medium.inFile = store.medium.inFile

namespace Settled

theorem of_carries (h : Writer.Carries q l c writer w)
    (hz : writer.config.compressor.Lawful) (hc : writer.config.cipher.Lawful) :
    Settled q l c (writer, w.under writer.store {}) where
  carries := h.under
  compressor := hz
  cipher := hc
  calm := World.calm_under
  willing store hs := by
    rw [World.getElem?_stores_under, Option.map_eq_some_iff] at hs
    obtain ⟨_, -, rfl⟩ := hs
    rfl

theorem idle (h : Settled q l c (writer, w)) {w' : World} (hi : World.Idle w w') :
    Settled q l c (writer, w') where
  carries := (Writer.Unmoved.idle h.carries hi).carries
  compressor := h.compressor
  cipher := h.cipher
  calm := hi.calm h.calm
  willing store hs := h.willing store (hi.stores ▸ hs)

theorem refl (h : Settled q l c s) : Follows q l c s l c s where
  settled := h
  grows := .refl l
  entries := List.prefix_refl _
  config := rfl
  store := rfl
  mark := rfl
  inFile store store' hs hs' := by
    rw [hs] at hs'
    cases hs'
    rfl

end Settled

namespace Follows

variable {l'' : Log} {c'' : Catalog}

theorem trans (h : Follows q l c s l' c' s') (h' : Follows q l' c' s' l'' c'' s'') :
    Follows q l c s l'' c'' s'' where
  settled := h'.settled
  grows := h.grows.trans h'.grows
  entries := h.entries.trans h'.entries
  config := h'.config.trans h.config
  store := h'.store.trans h.store
  mark := h'.mark.trans h.mark
  inFile store store'' hs hs'' := by
    obtain ⟨store', hs', -⟩ := h.settled.carries.index
    have h₁ := h.inFile store store' hs (h.store ▸ hs')
    exact (h'.inFile store' store'' hs' (h.store.symm ▸ hs'')).trans h₁

theorem idle (h : Follows q l c s l' c' (writer, w)) {w' : World} (hi : World.Idle w w') :
    Follows q l c s l' c' (writer, w') where
  settled := h.settled.idle hi
  grows := h.grows
  entries := h.entries
  config := h.config
  store := h.store
  mark := h.mark
  inFile store store' hs hs' := h.inFile store store' hs (hi.stores ▸ hs')

end Follows

theorem Store.Touched.kept {id : StoreId} {ss ss' : List Store} {st st' : Store}
    (h : Touched id ss ss') (hs : ss[id]? = some st) (hs' : ss'[id]? = some st') :
    st'.medium.inFile = st.medium.inFile ∧ st'.failCommits = st.failCommits := by
  rcases h with rfl | ⟨st₀, c, hs₀, rfl⟩
  · rw [hs] at hs'
    cases hs'
    exact ⟨rfl, rfl⟩
  · obtain ⟨hlt, -⟩ := List.getElem?_eq_some_iff.1 hs
    rw [List.getElem?_set_self hlt] at hs'
    rw [hs] at hs₀
    cases hs'
    cases hs₀
    exact ⟨by cases st.medium <;> rfl, rfl⟩

namespace Settled

theorem ready (h : Settled q l c s) (k : Circumstances) :
    Writer.Ready q l c s.1 (s.2.under s.1.store k) :=
  ⟨h.carries.under, h.compressor, h.cipher, World.returns_under⟩

theorem take_outcome (h : Settled q l c s) (step : Step) :
    ∃ l' c' s₁, Outcome q l c s.1 (s.2.under s.1.store step.circumstances) step.action
        (step.take s).1 l' c' s₁ ∧
      (step.take s).2 = (s₁.1, s₁.2.under s₁.1.store {}) ∧
      Follows q l c s l' c' (step.take s).2 := by
  obtain ⟨l', c', ho⟩ := attempt_outcome (h.ready step.circumstances) step.action
  refine ⟨l', c', _, ho, rfl, ?_⟩
  obtain ⟨hcfg, hst, hmark⟩ := ho.config
  have hmoves := ho.moves (h.ready step.circumstances).carries
  refine ⟨of_carries (ho.carries (h.ready _).carries) (hcfg ▸ h.compressor) (hcfg ▸ h.cipher),
    ho.grows, ho.entries_prefix (h.ready step.circumstances).carries, hcfg, hst, hmark, ?_⟩
  intro store store' hs hs'
  simp only [Step.take, hst, World.getElem?_stores_under, Option.map_eq_some_iff] at hs'
  obtain ⟨st, hst', rfl⟩ := hs'
  have hs₁ : (s.2.under s.1.store step.circumstances).stores[s.1.store]? =
      some { store with failCommits := step.circumstances.refuses } := by
    rw [World.getElem?_stores_under, hs]
    rfl
  exact (hmoves.stores.kept hs₁ hst').1

/-- The steps of a run append what they tell, each payload where the log ended before it. -/
theorem run (h : Settled q l c s) (steps : List Step) :
    ∃ l' c', Follows q l c s l' c' (run steps s).2 ∧
      (run steps s).1 = told l.stop ((run steps s).1.map Prod.fst) ∧
      l'.payloads = l.payloads ++ (run steps s).1.map Prod.fst := by
  induction steps generalizing l c s with
  | nil => exact ⟨l, c, h.refl, rfl, by simp [RecordLog.run]⟩
  | cons step steps ih =>
    obtain ⟨l₁, c₁, s₁, ho, -, hf₁⟩ := h.take_outcome step
    obtain ⟨l₂, c₂, hf₂, htold, hpay⟩ := ih hf₁.settled
    have hstop : l₁.stop = l.stop + extent ((step.action.appended (step.take s).1).map Prod.fst) := by
      rw [Log.stop_eq, Log.stop_eq, ho.payloads_eq, extent_append]
    refine ⟨l₂, c₂, hf₁.trans hf₂, ?_, ?_⟩
    · simp only [RecordLog.run, List.map_append, told_append]
      rw [← ho.appended_eq_told, ← hstop, ← htold]
    · simp only [RecordLog.run, List.map_append]
      rw [hpay, ho.payloads_eq, List.append_assoc]

end Settled

end RecordLog
