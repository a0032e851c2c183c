import Mathlib
import RecordLog.Proofs.Lives
import RecordLog.Proofs.Scans

/-!
# A log is the list of its payloads

Whatever a writer does, and whichever of its calls fail, a scan shows the payloads that were
appended with success and nothing else, each behind the one before.
-/

namespace RecordLog

open Record Segment

theorem exists_prefix_of_mem_told {pos : Nat} {ps : List Bytes} {x : Bytes × Nat}
    (h : x ∈ told pos ps) : ∃ qs, qs <+: ps ∧ x.2 = pos + extent qs := by
  induction ps generalizing pos with
  | nil => simp [told] at h
  | cons p ps ih =>
    rw [told, List.mem_cons] at h
    rcases h with rfl | h
    · exact ⟨[p], ⟨ps, rfl⟩, by simp⟩
    · obtain ⟨qs, hqs, hx⟩ := ih h
      exact ⟨p :: qs, List.cons_prefix_cons.2 ⟨rfl, hqs⟩, by rw [hx, extent_cons, Nat.add_assoc]⟩

theorem Log.boundary_of_told {l : Log} {start : Nat}
    (h : start = 0 ∨ start ∈ (told 0 l.payloads).map Prod.snd) : l.Boundary start := by
  rcases h with rfl | h
  · exact ⟨[], List.nil_prefix, rfl⟩
  · obtain ⟨x, hx, rfl⟩ := List.mem_map.1 h
    obtain ⟨ps, hps, hstart⟩ := exists_prefix_of_mem_told hx
    exact ⟨ps, hps, by rw [hstart, Nat.zero_add]⟩

variable {cfg : Config} {w w' : World} {op : Op Writer} {writer : Writer}

/-- After any steps of the first writer of a log, whatever became of them, a scan from the start or
from a position that an append told shows the payloads that were appended from there on. -/
theorem Founding.shows_readFrom_run (hf : Founding cfg w op) (hz : cfg.compressor.Lawful)
    (hc : cfg.cipher.Lawful) (hs : w.disk.Sound) (hr : w.Returns) (hop : op w = .ok writer w')
    (steps : List Step) {appended : List (Bytes × Nat)} {s : Writer × World}
    (hrun : run steps (writer, w'.under writer.store {}) = (appended, s))
    (hroom : Store.HasRoom s.1.store s.1.buffer.stop s.2) {start : Nat}
    (hstart : start = 0 ∨ start ∈ appended.map Prod.snd) :
    appended = told 0 (appended.map Prod.fst) ∧
      s.1.reader.stop s.2 = .ok s.1.buffer.stop s.2 ∧
      ∃ records, s.1.reader.readFrom start s.2 = (records, .done) ∧
        s.1.Shows s.2 (appended.map Prod.fst) start records := by
  obtain ⟨q, salt, rfl, -, -, -, hcar⟩ := hf.opened hs hr hop
  have hset : Settled q _ _ (writer, w'.under writer.store {}) := .of_carries hcar hz hc
  obtain ⟨l, c, hfollows, htold, hpay⟩ := hset.run steps
  rw [hrun] at hfollows htold hpay
  change l.payloads = [] ++ appended.map Prod.fst at hpay
  rw [List.nil_append] at hpay
  have hsettled := hfollows.settled
  have hlist := hsettled.carries.listable hroom
  have hbound : l.Boundary start :=
    Log.boundary_of_told (hpay ▸ (show appended = told 0 _ from htold) ▸ hstart)
  refine ⟨htold, ?_, _, hsettled.readFrom hlist hbound, hpay ▸ hsettled.shows hlist hbound⟩
  have hmark := hsettled.carries.mark
  simp only [Reader.stop, Reader.watermark, Writer.reader, bind, EStateM.bind, pure, EStateM.pure,
    List.getD_eq_getElem?_getD, hmark, Option.getD_some]
  rw [hsettled.carries.stop_eq]
  rfl

/-- Settings under which the bytes of a log stay as they are and few of them fill a segment. -/
def Config.plain : Config where
  folder := "."
  capacity := 4
  compressor := .identity
  cipher := .identity

/-- An empty disk and an empty index in memory. -/
def World.blank : World where
  stores := [{ medium := .memory {} }]
  salts := .ofNat
  nonces := .ofNat

theorem World.sound_blank : blank.disk.Sound where
  there p id h := by simp [blank] at h
  single p q id h := by simp [blank] at h
  ordinary id := by simp [blank, Disk.content]

theorem Founding.blank : Founding .plain .blank (Writer.resume .plain 0) := by
  refine .shared (q := []) rfl ⟨_, rfl, rfl, rfl, rfl⟩ fun s f hs hf => ?_
  cases hs
  cases hf

theorem Store.HasRoom.of_memory {id : StoreId} {stop : Nat} {w : World}
    (h : (w.stores[id]?.any (·.medium.inFile)) = false) : HasRoom id stop w := by
  intro s hs hf
  rw [hs, Option.any_some, hf] at h
  cases h

/-- Three appends. The second one fails, since it cannot seal the segment. -/
def threeAppends : List Step :=
  [⟨.append [1, 2] (by decide), {}⟩, ⟨.append [3, 4] (by decide), { refuses := true }⟩,
    ⟨.append [5] (by decide), {}⟩]

/-- A scan from where the first payload ended shows the third. -/
theorem shows_readFrom_threeAppends :
    ∃ writer w s records, Writer.resume .plain 0 .blank = .ok writer w ∧
      run threeAppends (writer, w.under writer.store {}) = ([([1, 2], 3), ([5], 5)], s) ∧
      s.1.reader.readFrom 3 s.2 = (records, .done) ∧ s.1.Shows s.2 [[1, 2], [5]] 3 records := by
  obtain ⟨writer, w, hop, hrun, hmemory⟩ : ∃ writer w, Writer.resume .plain 0 .blank = .ok writer w ∧
      (run threeAppends (writer, w.under writer.store {})).1 = [([1, 2], 3), ([5], 5)] ∧
      (run threeAppends (writer, w.under writer.store {})).2.2.stores[
        (run threeAppends (writer, w.under writer.store {})).2.1.store]?.any
          (·.medium.inFile) = false := ⟨_, _, rfl, by decide +kernel, by decide +kernel⟩
  obtain ⟨-, -, records, hread, hshows⟩ := Founding.blank.shows_readFrom_run
    Compressor.lawful_identity Cipher.lawful_identity World.sound_blank
    (World.Calm.returns rfl) hop threeAppends (Prod.ext hrun rfl) (.of_memory hmemory)
    (show 3 = 0 ∨ 3 ∈ _ from .inr (by decide))
  exact ⟨writer, w, _, records, hop, Prod.ext hrun rfl, hread, hshows⟩

end RecordLog
