import Mathlib
import RecordLog.Proofs.LiveFile

/-!
# The file of a chunk

A chunk is written under the name of a draft and takes its own name when all of it is there. So a
failure leaves the file of a chunk as it was, and the file of a chunk that was sealed decodes to
what the live segment held.
-/

namespace RecordLog

open World

variable {cfg : Config} {q : Place} {w : World}

namespace Chunk

def footprint (q : Place) (start : Nat) : Footprint :=
  { places := [q ++ [draftFileName start], q ++ [chunkFileName start]] }

def drafting (q : Place) (start : Nat) (head : HeadId) : Footprint :=
  { places := [q ++ [draftFileName start], q ++ [chunkFileName start]], heads := [head] }

theorem changes_of_drafting {start : Nat} {w' : World}
    (h : World.Changes (drafting q start w.heads.length) w w') :
    World.Changes (footprint q start) w w' := by
  refine h.forget (fun _ hp => hp) (fun _ hf => hf) ?_
  intro i hi hlt
  simp only [drafting, List.mem_singleton] at hi
  exact absurd hlt (by simp [hi])

theorem ends_openDraft (hs : w.disk.Sound) (hq : w.disk.enter cfg.path = .ok q) (start : Nat)
    {F : Footprint} (hF : q ++ [draftFileName start] ∈ F.places) :
    Ends (Op.onDisk "create chunk" fun d =>
        (d.openOrCreate (cfg.locate (draftFileName start))).map fun (id, d) => (id, d.empty id)) w
      (fun id w' => World.Changes F w w' ∧ w'.heads = w.heads ∧ w'.disk.content id = .bytes [] ∧
        w'.disk.names.get? (q ++ [draftFileName start]) = some (.file id))
      fun stop w' => w' = w ∧ ∃ e, stop = .error e := by
  refine (Op.ends_onDisk _ _ w).mono ?_ ?_
  swap
  · rintro stop w' ⟨hw, cause, -, he⟩
    exact ⟨hw, _, he⟩
  rintro id _ ⟨d', hd', rfl⟩
  cases hopen : w.disk.openOrCreate (cfg.locate (draftFileName start)) with
  | error e => simp [hopen, Except.map] at hd'
  | ok r =>
    obtain ⟨id', d⟩ := r
    simp only [hopen, Except.map, Except.ok.injEq, Prod.mk.injEq] at hd'
    obtain ⟨rfl, rfl⟩ := hd'
    have hplain := (LogName.draft start).plain
    have hchanges := Disk.changes_openOrCreate hq hplain hopen hF
    have hname := Disk.names_openOrCreate hq hplain hopen
    have hsd := hchanges.sound hs
    have hempty : (d.content id').emptied = .bytes [] := by
      cases hc : d.content id' with
      | full => exact absurd hc (hsd.ordinary id')
      | bytes x => rfl
      | tables t damage => rfl
    refine ⟨World.Changes.ofDisk (hchanges.trans ?_), rfl, ?_, hname⟩
    · exact Disk.Changes.setContent (by simp [hempty]) (.inr ⟨_, hF, hname⟩)
    · change (d.setContent id' (d.content id').emptied).content id' = _
      rw [Disk.content_setContent, if_pos ⟨rfl, hsd.there _ _ hname⟩, hempty]

theorem ends_writeDraft {start : Nat} {id : FileId} {head : HeadId} (hs : w.disk.Sound)
    (hr : w.Returns) (hn : w.disk.names.get? (q ++ [draftFileName start]) = some (.file id))
    (hx : w.disk.content id = .bytes []) (hh : w.heads[head]? = some 0) (bytes : Bytes) :
    Ends (Op.writeFile "write chunk" id head bytes) w
      (fun _ w' => World.Changes (drafting q start head) w w' ∧
        w'.disk.names.get? (q ++ [draftFileName start]) = some (.file id) ∧
        ∃ y, w'.disk.content id = .bytes y ∧ y.toBytes = bytes)
      fun stop w' => (∃ e, stop = .error e) ∧ World.Changes (drafting q start head) w w' := by
  have hrewrite (w₁ : World) (y : Sparse) (n : Nat) (hi : Idle w w₁) :
      World.Changes (drafting q start head) w (w₁.rewrite id y head n) :=
    hi.changes.trans (changes_rewrite (by simp [drafting])
      (.inr ⟨_, by simp [drafting], hi.disk ▸ hn⟩))
  refine (Op.ends_writeFile "write chunk" bytes hx hh).mono ?_ ?_
  · rintro _ _ ⟨w₁, y, hi, rfl, hy⟩
    refine ⟨hrewrite w₁ y _ hi, ?_, y, content_rewrite ?_, hy⟩
    · rw [names_rewrite, hi.disk, hn]
    · exact hi.disk ▸ hs.there _ _ hn
  · rintro _ _ ⟨w₁, y, n, hi, rfl, -, hf, -⟩
    exact ⟨hf hr, hrewrite w₁ y n hi⟩

theorem ends_syncDraft {id : FileId} {y : Sparse} (hx : w.disk.content id = .bytes y) :
    Ends (Op.lookAtDisk "sync chunk" (·.sync id)) w (fun _ w' => w' = w) fun _ _ => False := by
  refine ends_of_eq_ok (a := ()) (t := w) ?_ rfl
  simp [Op.lookAtDisk, Op.onDisk, Disk.sync, hx, Content.sync, Except.map]

/-- The draft takes the name of the chunk, and with what happened so far only the two names and
their files changed. -/
theorem ends_publish {w₀ : World} {start n : Nat} {id : FileId} {y : Sparse}
    (hq : w₀.disk.enter cfg.path = .ok q) (hr : w₀.Returns)
    (hc : World.Changes (footprint q start) w₀ w)
    (hn : w.disk.names.get? (q ++ [draftFileName start]) = some (.file id))
    (hx : w.disk.content id = .bytes y) :
    Ends (do
        Op.passDisk .rename "rename chunk"
        Op.changeDisk "rename chunk"
          (·.rename (cfg.locate (draftFileName start)) (cfg.locate (chunkFileName start)))
        pure n) w
      (fun n' w' => n' = n ∧ cfg.Reaches (chunkFileName start) ∧
        w'.disk.Holds (q ++ [chunkFileName start]) y.toBytes ∧
        World.Changes (footprint q start) w₀ w')
      fun stop w' => (∃ e, stop = .error e) ∧ World.Changes (footprint q start) w₀ w' := by
  refine (Op.ends_passDisk .rename _ w).bind (fun _ w₁ hi => ?_)
    fun stop w' ⟨hi, hf, _⟩ => ⟨hf (hc.returns hr), hc.trans hi.changes⟩
  have hc₁ := hc.trans hi.changes
  rw [← hi.disk] at hn hx
  refine (Op.ends_changeDisk _ _ w₁).bind ?_ ?_
  · rintro _ _ ⟨d, hd, rfl⟩
    obtain ⟨id', hid', hreach, hfolder, rfl⟩ := Disk.rename_eq_ok
      (hc₁.disk.enter hq) (LogName.draft start).plain (LogName.chunk start).plain hd
    rw [hn] at hid'
    cases hid'
    refine ends_pure ⟨rfl, hreach, ⟨id, y, ?_, hx, rfl⟩, hc₁.trans (World.Changes.ofDisk
      (Disk.Changes.move (by simp [footprint]) (by simp [footprint]) hn hfolder))⟩
    rw [Table.get?_insert, if_pos rfl]
  · rintro stop _ ⟨rfl, cause, -, rfl⟩
    exact ⟨⟨_, rfl⟩, hc₁⟩

/-- Writing a chunk puts all of its file in place or leaves its place alone. -/
theorem ends_persist (hs : w.disk.Sound) (hq : w.disk.enter cfg.path = .ok q) (hr : w.Returns)
    (start : Nat) (bytes : Bytes) :
    Ends (persist cfg start bytes) w
      (fun n w' => n = bytes.length ∧ cfg.Reaches (chunkFileName start) ∧
        w'.disk.Holds (q ++ [chunkFileName start]) bytes ∧
        World.Changes (footprint q start) w w')
      fun stop w' => (∃ e, stop = .error e) ∧ World.Changes (footprint q start) w w' := by
  refine (Op.ends_passDisk .create _ w).bind (fun _ w₁ hi => ?_)
    fun stop w' ⟨hi, hf, _⟩ => ⟨hf hr, hi.changes⟩
  refine (ends_openDraft (F := footprint q start) (hi.disk ▸ hs) (hi.disk ▸ hq) start
    (by simp [footprint])).bind (fun id w₂ h₂ => ?_) ?_
  swap
  · rintro stop w' ⟨rfl, he⟩
    exact ⟨he, hi.changes⟩
  obtain ⟨hc₂, hh₂, hx₂, hn₂⟩ := h₂
  have hc₂ := (hi.changes (F := footprint q start)).trans hc₂
  refine (Op.ends_addHead 0 w₂).bind ?_ fun _ _ hF => hF.elim
  rintro head w₃ ⟨rfl, rfl⟩
  have hlen : w₂.heads.length = w.heads.length := congrArg List.length (hh₂.trans hi.heads)
  have hc₃ := hc₂.trans (Op.changes_addHead 0 w₂)
  have hdrafted := hc₃.mono (G := drafting q start w.heads.length)
    ⟨fun _ h => h, fun _ h => h, List.nil_subset _⟩
  have hforget {w' : World} (h : World.Changes (drafting q start w₂.heads.length) _ w') :
      World.Changes (footprint q start) w w' :=
    changes_of_drafting (hdrafted.trans (hlen ▸ h))
  refine (ends_writeDraft (hc₃.disk.sound hs) (hc₃.returns hr) hn₂ hx₂ (by simp) bytes).bind
    (fun _ w₄ h₄ => ?_) fun _ _ ⟨he, hc⟩ => ⟨he, hforget hc⟩
  obtain ⟨hc₄, hn₄, y, hx₄, rfl⟩ := h₄
  have hc₄ := hforget hc₄
  dsimp only
  split
  · refine (ends_syncDraft hx₄).bind ?_ fun _ _ hF => hF.elim
    rintro _ _ rfl
    exact ends_publish hq hr hc₄ hn₄ hx₄
  · exact ends_publish hq hr hc₄ hn₄ hx₄

def Decodes (cfg : Config) (bytes content : Bytes) : Prop :=
  ∃ compressed, cfg.cipher.decode bytes = .ok compressed ∧
    cfg.compressor.decode compressed = .ok content

def Decoded (cfg : Config) (c : Chunk) (d : Disk) (content : Bytes) : Prop :=
  ∃ bytes, d.readAll (cfg.locate c.file) = .ok bytes ∧ Decodes cfg bytes content

theorem ends_load_any (c : Chunk) (w : World) :
    Ends (load cfg c) w
      (fun content w' => Idle w w' ∧ content.length = c.size ∧ c.Decoded cfg w.disk content)
      fun stop w' => Idle w w' ∧ Failed w stop := by
  refine (Op.ends_lookAtDisk _ _ w).bind ?_ ?_
  swap
  · rintro stop w' ⟨rfl, cause, -, rfl⟩
    exact ⟨.refl _, .error _ _⟩
  rintro bytes w' ⟨rfl, hr⟩
  refine (Op.ends_call _ _ _ w').bind ?_ fun _ _ hE => hE
  rintro compressed w₁ ⟨h₁, hdec⟩
  refine (Op.ends_call _ _ _ w₁).bind ?_
    fun _ _ hE => ⟨h₁.trans hE.1, fun hret => hE.2 (h₁.returns hret)⟩
  rintro content w₂ ⟨h₂, hcomp⟩
  split
  · rename_i hsize
    exact ends_pure ⟨h₁.trans h₂, hsize, bytes, hr, compressed, hdec, hcomp⟩
  · exact ends_throw ⟨h₁.trans h₂, .error _ _⟩

theorem ends_load {c : Chunk} {bytes content : Bytes} (hq : w.disk.enter cfg.path = .ok q)
    (hn : Path.Plain c.file) (hreach : cfg.Reaches c.file)
    (hb : w.disk.Holds (q ++ [c.file]) bytes) (hd : Decodes cfg bytes content)
    (hsize : content.length = c.size) :
    Ends (load cfg c) w (fun content' w' => content' = content ∧ Idle w w')
      fun _ w' => Idle w w' ∧ ¬ w.Calm := by
  obtain ⟨compressed, hdec, hcomp⟩ := hd
  have hread := Disk.readAll_of_holds hq hn hreach hb
  refine (Op.ends_lookAtDisk _ _ w).bind ?_ ?_
  swap
  · rintro stop w' ⟨-, cause, he, -⟩
    rw [hread] at he
    cases he
  rintro bytes' w' ⟨rfl, hr⟩
  obtain rfl : bytes = bytes' := Except.ok.inj (hread.symm.trans hr)
  refine (Op.ends_call_of_ok hdec _).bind ?_ fun _ _ hE => hE
  rintro _ w₁ ⟨rfl, h₁⟩
  refine (Op.ends_call_of_ok hcomp w₁).bind ?_
    fun _ w' hE => ⟨h₁.trans hE.1, fun hc => hE.2 (h₁.calm hc)⟩
  rintro _ w₂ ⟨rfl, h₂⟩
  rw [if_pos hsize]
  exact ends_pure ⟨rfl, h₁.trans h₂⟩

end Chunk

/-- Sealing writes a chunk that decodes to what the live segment holds, and leaves that alone. -/
theorem Buffer.ends_sealed {b : Buffer} {pieces : List Bytes} (hz : cfg.compressor.Lawful)
    (hc : cfg.cipher.Lawful) (h : b.Carries cfg.cipher pieces w) (hs : w.disk.Sound)
    (hq : w.disk.enter cfg.path = .ok q) (hr : w.Returns) :
    Ends (b.sealed cfg) w
      (fun chunk w' => World.Changes (Chunk.footprint q b.start) w w' ∧
        cfg.Reaches (chunkFileName b.start) ∧
        ∃ bytes, chunk = ⟨chunkFileName b.start, b.start, b.pos, bytes.length, b.records⟩ ∧
          w'.disk.Holds (q ++ [chunkFileName b.start]) bytes ∧
          Chunk.Decodes cfg bytes pieces.flatten)
      fun stop w' => (∃ e, stop = .error e) ∧
        World.Changes (Chunk.footprint q b.start) w w' := by
  refine (ends_content hc h).bind ?_ fun stop w' ⟨hi, hf⟩ => ⟨hf hr, hi.changes⟩
  rintro content w₁ ⟨h₁, rfl⟩
  refine (Op.ends_compress cfg.compressor _ w₁).bind ?_
    fun stop w' ⟨hi, hf⟩ => ⟨hf (h₁.returns hr), (h₁.trans hi).changes⟩
  rintro compressed w₂ ⟨h₂, hcomp⟩
  have h₂ := h₁.trans h₂
  refine (Op.ends_encrypt cfg.cipher _ w₂).bind ?_
    fun stop w' ⟨hi, hf⟩ => ⟨hf (h₂.returns hr), (h₂.trans hi).changes⟩
  rintro encrypted w₃ ⟨h₃, nonce, henc⟩
  have h₃ := h₂.trans h₃
  refine (Chunk.ends_persist (q := q) (h₃.disk ▸ hs) (h₃.disk ▸ hq) (h₃.returns hr) b.start
    encrypted).bind ?_ fun stop w' ⟨he, hch⟩ => ⟨he, h₃.changes.trans hch⟩
  rintro n w₄ ⟨rfl, hreach, hb, hch⟩
  exact ends_pure ⟨h₃.changes.trans hch, hreach, encrypted, rfl, hb, compressed,
    hc.decode_encode _ _ _ henc, hz _ _ hcomp⟩

end RecordLog
