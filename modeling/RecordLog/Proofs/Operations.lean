import Mathlib
import RecordLog.Proofs.Sealing

/-!
# The operations of a writer

An append adds its record behind the room it made: behind the live segment as it is, or behind a
new one if the record did not fit. A checkpoint makes the whole log durable. Whatever fails leaves
the log as it was, but for the segment that an append had sealed before it failed.
-/

namespace RecordLog

open Record Segment

variable {q : Place} {l : Log} {c : Catalog} {writer : Writer} {w w' : World} {data : Bytes}

namespace Writer

/-- The writer has room for a record, as it is or because it sealed the live segment. -/
inductive MadeRoom (q : Place) (l : Log) (c : Catalog) (writer : Writer) (w : World)
    (data : Bytes) : Log → Catalog → Writer × World → Prop where
  | fits (h : writer.buffer.fits (Record.size data) = true) :
      MadeRoom q l c writer w data l c (writer, w)
  | sealed {salt : UInt64} {diskSize : Nat} {next : Buffer} {w₁ : World}
      (h : writer.buffer.fits (Record.size data) = false)
      (hrotate : rotate (writer, w) = .ok () ({ writer with buffer := next }, w₁))
      (hcapacity : next.capacity = writer.config.capacity)
      (hcarries : Carries q (l.rotate salt) (c.seal (l.chunk diskSize) next.state)
        { writer with buffer := next } w₁)
      (hmoves : World.Moves q writer.store l.base w w₁) :
      MadeRoom q l c writer w data (l.rotate salt) (c.seal (l.chunk diskSize) next.state)
        ({ writer with buffer := next }, w₁)

namespace MadeRoom

variable {l₁ : Log} {c₁ : Catalog} {s₁ : Writer × World}

theorem carries (h : Carries q l c writer w) (hm : MadeRoom q l c writer w data l₁ c₁ s₁) :
    Carries q l₁ c₁ s₁.1 s₁.2 := by
  cases hm with
  | fits _ => exact h
  | sealed _ _ _ hc _ => exact hc

theorem moves (h : Carries q l c writer w) (hm : MadeRoom q l c writer w data l₁ c₁ s₁) :
    World.Moves q writer.store l.base w s₁.2 := by
  cases hm with
  | fits _ => exact .refl h.sound
  | sealed _ _ _ _ hm => exact hm

theorem config (hm : MadeRoom q l c writer w data l₁ c₁ s₁) :
    s₁.1.config = writer.config ∧ s₁.1.store = writer.store ∧ s₁.1.mark = writer.mark ∧
      s₁.1.stats = writer.stats := by
  cases hm <;> exact ⟨rfl, rfl, rfl, rfl⟩

theorem base_le (hm : MadeRoom q l c writer w data l₁ c₁ s₁) : l.base ≤ l₁.base := by
  cases hm with
  | fits _ => exact Nat.le_refl _
  | sealed _ _ _ _ _ =>
    rw [Log.base_rotate]
    exact Nat.le_add_right _ _

theorem grows (hm : MadeRoom q l c writer w data l₁ c₁ s₁) : l.Grows l₁ := by
  cases hm with
  | fits _ => exact .refl l
  | sealed _ _ _ _ _ => exact .rotate l _

theorem payloads_eq (hm : MadeRoom q l c writer w data l₁ c₁ s₁) : l₁.payloads = l.payloads := by
  cases hm with
  | fits _ => rfl
  | sealed _ _ _ _ _ => exact Log.payloads_rotate _ _

end MadeRoom

/-- An append failed: nothing happened, or no more than that the live segment was sealed. -/
inductive Refused (q : Place) (l : Log) (c : Catalog) (writer : Writer) (w : World) (data : Bytes)
    (s' : Writer × World) : Prop where
  | unmoved (h : Unmoved q l c writer w s')
  | sealed {l₁ : Log} {c₁ : Catalog} {s₁ : Writer × World}
      (hfits : writer.buffer.fits (Record.size data) = false)
      (hroom : MadeRoom q l c writer w data l₁ c₁ s₁) (h : Unmoved q l₁ c₁ s₁.1 s₁.2 s')

theorem not_fits_pos (h : Carries q l c writer w)
    (hf : writer.buffer.fits (Record.size data) = false) : l.live.payloads ≠ [] := by
  intro hnil
  have hpos := h.pos_eq_zero.2 hnil
  simp [BufferState.fits, hpos] at hf

theorem ends_append (h : Ready q l c writer w) (hd : Writable data) :
    Ends (append data) (writer, w)
      (fun n s' => ∃ l₁ c₁ s₁, MadeRoom q l c writer w data l₁ c₁ s₁ ∧ n = (l₁.push data).stop ∧
        s'.1 = s₁.1.withRecord data ∧ Carries q (l₁.push data) c₁ s'.1 s'.2 ∧
        World.Moves q writer.store l.base w s'.2)
      fun stop s' => (∃ e, stop = .error e) ∧ Refused q l c writer w data s' := by
  have hwrite {l₁ c₁ s₁} (hm : MadeRoom q l c writer w data l₁ c₁ s₁) :
      Ends (writeRecord data) s₁
        (fun n s' => ∃ l₁ c₁ s₁, MadeRoom q l c writer w data l₁ c₁ s₁ ∧
          n = (l₁.push data).stop ∧ s'.1 = s₁.1.withRecord data ∧
          Carries q (l₁.push data) c₁ s'.1 s'.2 ∧ World.Moves q writer.store l.base w s'.2)
        fun stop s' => (∃ e, stop = .error e) ∧ Unmoved q l₁ c₁ s₁.1 s₁.2 s' := by
    obtain ⟨hcfg, hst, -, -⟩ := hm.config
    have hready : Ready q l₁ c₁ s₁.1 s₁.2 := ⟨hm.carries h.carries, hcfg ▸ h.compressor,
      hcfg ▸ h.cipher, (hm.moves h.carries).returns h.returns⟩
    refine (ends_writeRecord hready hd).mono ?_ fun _ _ hE => hE
    rintro n s' ⟨hn, hw, hc, hmv⟩
    exact ⟨l₁, c₁, s₁, hm, hn, hw, hc, (hm.moves h.carries).trans (hst ▸ hmv.mono hm.base_le)⟩
  refine Writing.ends_writer_bind ?_
  rw [Record.length_encode]
  cases hf : writer.buffer.fits (Record.size data) with
  | true =>
    simp only [if_true]
    refine (hwrite (.fits hf)).mono (fun _ _ hQ => hQ) ?_
    rintro stop s' ⟨he, hu⟩
    exact ⟨he, .unmoved hu⟩
  | false =>
    simp only [Bool.false_eq_true, if_false]
    have hrot := ends_rotate h (not_fits_pos h.carries hf)
    cases hx : rotate (writer, w) with
    | error stop s' =>
      obtain ⟨he, hu⟩ := hrot.error hx
      exact ends_of_eq_error (by simp only [bind, EStateM.bind, hx]) ⟨he, .unmoved hu⟩
    | ok u s₁ =>
      obtain ⟨⟨salt, n, next, hs₁, hcap, hc₁⟩, hm₁⟩ := hrot.ok hx
      obtain ⟨writer₁, w₁⟩ := s₁
      dsimp only at hs₁ hc₁ hm₁
      subst hs₁
      have hroom := MadeRoom.sealed hf hx hcap hc₁ hm₁
      refine Ends.bind (P := fun _ s' => s' = ({ writer with buffer := next }, w₁))
        (F := fun _ _ => False) (ends_of_eq_ok hx rfl) ?_ fun _ _ hF => hF.elim
      rintro _ _ rfl
      refine (hwrite hroom).mono (fun _ _ hQ => hQ) ?_
      rintro stop s' ⟨he, hu⟩
      exact ⟨he, .sealed hf hroom hu⟩

theorem ends_sealLive (h : Ready q l c writer w) :
    Ends sealLive (writer, w)
      (fun _ s' => (l.live.payloads = [] ∧ s' = (writer, w)) ∨
        (l.live.payloads ≠ [] ∧ rotate (writer, w) = .ok () s' ∧ Rotated q l c writer w s'))
      fun stop s' => (∃ e, stop = .error e) ∧ Unmoved q l c writer w s' := by
  refine Writing.ends_writer_bind ?_
  have hpos := h.carries.pos_eq_zero
  by_cases h0 : writer.buffer.pos = 0
  · simp only [h0, if_true]
    exact ends_pure (.inl ⟨hpos.1 h0, rfl⟩)
  · simp only [h0, if_false]
    have hne := fun hnil => h0 (hpos.2 hnil)
    have hrot := ends_rotate h hne
    cases hx : rotate (writer, w) with
    | ok u s' => exact ends_of_eq_ok hx (.inr ⟨hne, rfl, hrot.ok hx⟩)
    | error stop s' => exact ends_of_eq_error hx (hrot.error hx)

theorem Carries.commits {c' : Catalog} {kept : Nat} (h : Carries q l c writer w)
    (hcom : Store.Commits q writer.store c' w w') (hchunks : c'.chunks = c.chunks)
    (hkept : kept ≤ l.live.payloads.length)
    (hbuffer : c'.buffer = some ({ l with kept }.cut.state writer.buffer.capacity)) :
    Carries q { l with kept } c' writer w' ∧ World.Moves q writer.store l.base w w' := by
  have hm : World.Moves q writer.store l.base w w' :=
    .ofCommits h.sound hcom ⟨_, h.index.choose_spec.1⟩
  have hsame := World.Moves.sameFile_of_commits h.sound hcom (.live l.base)
  have hgrown : w.disk.files.length ≤ w'.disk.files.length := by
    obtain ⟨F, -, -, hch⟩ := hcom.disk
    exact hch.grown
  refine ⟨{ h with
    home := hm.enter _ h.home
    sound := hm.sound
    index := hcom.keeps
    chunks := hchunks ▸ Sealed.moves h.chunks hm
    file := h.file.frame (hsame.content _ h.linked) (by rw [hcom.heads]) hgrown
    linked := hsame.names.trans h.linked
    mark := hcom.marks ▸ h.mark
    kept := hkept
    described := hbuffer }, hm⟩


theorem smooth_checkpoint (c : Catalog) (b : BufferState) (s : Stats) (inFile : Bool) :
    Program.Smooth inFile c (do
      Program.request (.putBuffer b)
      Program.request (.putStats s)) :=
  ⟨fun _ => trivial, fun _ _ _ => ⟨fun _ => trivial, fun _ _ _ => trivial⟩⟩

theorem ends_checkpoint (h : Ready q l c writer w) :
    Ends checkpoint (writer, w)
      (fun n s' => n = l.stop ∧ s'.1 = writer ∧
        Carries q l.keep { c with buffer := some writer.buffer.state, stats := some writer.stats }
          writer s'.2 ∧
        World.Moves q writer.store l.base w s'.2)
      fun stop s' => (∃ e, stop = .error e) ∧ Unmoved q l c writer w s' := by
  obtain ⟨h, -, -, hr⟩ := h
  refine Writing.ends_writer_bind ?_
  refine Writing.ends_onWorld_bind (Buffer.ends_flush h.file) ?_ fun _ _ hF => hF.elim
  rintro _ w₁ hw₁
  rw [hw₁]
  refine Writing.ends_onWorld_bind (Store.ends_update h.sound h.index (smooth_checkpoint _ _ _)) ?_
    fun _ _ hE => ⟨hE.2 hr, .idle h hE.1⟩
  rintro _ w' ⟨c', hout, hcom⟩
  obtain rfl : _ = c' := congrArg Prod.snd (Option.some.inj hout)
  have hkeep : ({ l with kept := l.live.payloads.length } : Log) = l.keep := rfl
  have hstate : some writer.buffer.state = some (l.keep.cut.state writer.buffer.capacity) := by
    rw [Log.cut_keep]
    exact congrArg some h.state
  obtain ⟨hc, hm⟩ := h.commits hcom rfl (Nat.le_refl _) (hkeep ▸ hstate)
  exact ends_pure ⟨h.stop_eq, rfl, hc, hm⟩

theorem Carries.withStats (h : Carries q l c writer w) (stats : Stats) :
    Carries q l c { writer with stats } w :=
  { h with }

theorem ends_putCheckpoint (h : Carries q l c writer w) (hr : w.Returns) (name : String)
    (pos : Nat) :
    Ends (putCheckpoint writer name pos) w
      (fun _ w' => Carries q l { c with checkpoints := c.checkpoints.insert name pos } writer w' ∧
        World.Moves q writer.store l.base w w')
      fun stop w' => (∃ e, stop = .error e) ∧ World.Idle w w' := by
  have hp (inFile : Bool) : Program.Smooth inFile c (Program.request (.putCheckpoint name pos)) :=
    ⟨fun _ => trivial, fun _ _ _ => trivial⟩
  refine (Store.ends_update h.sound h.index hp).mono ?_ ?_
  · rintro _ w' ⟨c', hout, hcom⟩
    obtain rfl : _ = c' := congrArg Prod.snd (Option.some.inj hout)
    exact h.commits hcom rfl h.kept h.described
  · rintro stop w' ⟨hi, hf⟩
    exact ⟨hf hr, hi⟩

end Writer

end RecordLog
