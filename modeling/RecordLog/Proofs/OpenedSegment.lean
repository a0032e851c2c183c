import Mathlib
import RecordLog.Proofs.LiveFile

/-!
# Opening the file of a live segment

Opening finds the file of a descriptor or makes it, and cuts it to the length described. An empty
segment can be opened over whatever file has its name. A segment that holds something is opened
over a file that holds at least as much, and an opening that fails leaves every file as it was.
-/

namespace RecordLog

open World

namespace Content

theorem exists_cut {old : Content} {pos : Nat} (hf : old ≠ .full)
    (hold : pos = 0 ∨ ∃ x, old = .bytes x ∧ pos ≤ x.size) :
    pos ≤ old.size ∧ ∃ x : Sparse,
      (if pos < old.size then old.setSize pos = .ok (.bytes x) else old = .bytes x) ∧
      x.size = pos ∧ ∀ y, old = .bytes y → x.toBytes = y.toBytes.take pos := by
  cases old with
  | full => exact absurd rfl hf
  | tables t damage =>
    have h0 : pos = 0 := by
      rcases hold with h | ⟨x, hx, -⟩
      · exact h
      · cases hx
    subst h0
    refine ⟨Nat.zero_le _, Sparse.resize 0 [], ?_, rfl, fun y hy => by cases hy⟩
    rw [if_pos (show 0 < (Content.tables t damage).size by simp [Content.size, indexSize])]
    simp [setSize, indexSize]
  | bytes x =>
    have hle : pos ≤ x.size := by
      rcases hold with h | ⟨y, hy, hle⟩
      · exact h ▸ Nat.zero_le _
      · cases hy
        exact hle
    refine ⟨hle, ?_⟩
    by_cases hlt : pos < (Content.bytes x).size
    · have hb : (x.resize pos).toBytes = x.toBytes.take pos := by
        rw [Sparse.toBytes_resize, Nat.sub_eq_zero_of_le hle]
        simp
      refine ⟨x.resize pos, by rw [if_pos hlt]; rfl, ?_, ?_⟩
      · rw [← Sparse.length_toBytes, hb, List.length_take, Sparse.length_toBytes]
        exact Nat.min_eq_left hle
      · intro y hy
        cases hy
        exact hb
    · have heq : x.size = pos := Nat.le_antisymm (Nat.le_of_not_lt hlt) hle
      refine ⟨x, by rw [if_neg hlt], heq, ?_⟩
      intro y hy
      cases hy
      rw [List.take_of_length_le (by simp [heq])]

end Content

namespace Buffer

variable {cfg : Config} {q : Place} {s : BufferState} {w : World}

/-- A segment that was opened: its file, and where its head stands. -/
structure Opened (cfg : Config) (q : Place) (s : BufferState) (w : World) (b : Buffer)
    (w' : World) : Prop where
  state : b.toBufferState = s
  reaches : cfg.Reaches s.file
  changes : World.Changes { places := [q ++ [s.file]] } w w'
  linked : w'.disk.names.get? (q ++ [s.file]) = some (.file b.handle)
  head : w'.heads[b.head]? = some s.pos
  fresh : w.heads.length ≤ b.head
  content : ∃ x, w'.disk.content b.handle = .bytes x ∧ x.size = s.pos ∧
    ∀ bs, w.disk.Holds (q ++ [s.file]) bs → x.toBytes = bs.take s.pos

theorem ends_cut {id : FileId} {x : Sparse} (hl : w.disk.names.get? (q ++ [s.file]) = some (.file id))
    (hthere : id < w.disk.files.length)
    (hif : if s.pos < (w.disk.content id).size
      then (w.disk.content id).setSize s.pos = .ok (.bytes x) else w.disk.content id = .bytes x)
    {k : Op Buffer} {Q : Buffer → World → Prop} {E : Stop → World → Prop}
    (hk : ∀ w', World.Changes { places := [q ++ [s.file]] } w w' →
      w'.disk.names.get? (q ++ [s.file]) = some (.file id) → w'.disk.content id = .bytes x →
      Ends k w' Q E) :
    Ends (if s.pos < (w.disk.content id).size then do
        Op.changeDisk "truncate buffer" (·.setSize id s.pos)
        k
      else k) w Q E := by
  by_cases hlt : s.pos < (w.disk.content id).size
  · rw [if_pos hlt] at hif ⊢
    have hset : w.disk.setSize id s.pos = .ok (w.disk.setContent id (.bytes x)) := by
      simp [Disk.setSize, hif, Except.map]
    refine (Op.ends_changeDisk _ _ w).bind ?_ ?_
    · rintro _ _ ⟨d, hd, rfl⟩
      rw [hset] at hd
      cases hd
      refine hk _ (World.Changes.ofDisk (Disk.Changes.setContent (by simp)
        (.inr ⟨_, by simp, hl⟩))) hl ?_
      rw [Disk.content_setContent, if_pos ⟨rfl, hthere⟩]
    · rintro _ _ ⟨-, cause, hc, -⟩
      rw [hset] at hc
      cases hc
  · rw [if_neg hlt] at hif ⊢
    exact hk w (Idle.refl w).changes hl hif

theorem ends_resume (hs : w.disk.Sound) (hq : w.disk.enter cfg.path = .ok q)
    (hn : Path.Plain s.file)
    (hold : s.pos = 0 ∨ ∃ bs, w.disk.Holds (q ++ [s.file]) bs ∧ s.pos ≤ bs.length) :
    Ends (resume cfg s) w (Opened cfg q s w)
      fun stop w' => Idle w w' ∧ Failed w stop ∧
        (w.Calm → cfg.Reaches s.file →
          ∀ id, w.disk.names.get? (q ++ [s.file]) ≠ some (.file id)) := by
  refine (Op.ends_passDisk .create "open buffer" w).bind (fun _ w₁ hi => ?_) ?_
  swap
  · rintro stop w' ⟨hi, hf, hc⟩
    exact ⟨hi, hf, fun h => absurd h hc⟩
  refine (Op.ends_onDisk "open buffer" _ w₁).bind ?_ ?_
  swap
  · rintro stop w' ⟨rfl, cause, hc, rfl⟩
    refine ⟨hi, Failed.error w _, fun _ hr id hid => ?_⟩
    rw [hi.disk, Disk.openOrCreate_of_file hq hn hr hid] at hc
    cases hc
  rintro id _ ⟨d, hopen, rfl⟩
  rw [hi.disk] at hopen
  have hch : w.disk.Changes { places := [q ++ [s.file]] } d :=
    Disk.changes_openOrCreate hq hn hopen (by simp)
  have hlink := Disk.names_openOrCreate hq hn hopen
  have hreach := (Disk.openOrCreate_eq_ok hq hn hopen).1
  have hsd := hch.sound hs
  have hcut : s.pos = 0 ∨ ∃ x, d.content id = .bytes x ∧ s.pos ≤ x.size := by
    refine hold.imp_right ?_
    rintro ⟨bs, hb, hle⟩
    obtain ⟨x, hx, rfl⟩ := Disk.bytes_openOrCreate hq hn hopen hb
    exact ⟨x, hx, by simpa using hle⟩
  obtain ⟨hle, x, hif, hsize, hfront⟩ := Content.exists_cut (hsd.ordinary id) hcut
  have hbytes (bs : Bytes) (hb : w.disk.Holds (q ++ [s.file]) bs) : x.toBytes = bs.take s.pos := by
    obtain ⟨y, hy, rfl⟩ := Disk.bytes_openOrCreate hq hn hopen hb
    exact hfront y hy
  have hch₂ : World.Changes { places := [q ++ [s.file]] } w { w₁ with disk := d } :=
    hi.changes.trans (World.Changes.ofDisk (hi.disk ▸ hch))
  refine (ends_get (Q := fun a w' => a = { w₁ with disk := d } ∧ w' = { w₁ with disk := d })
    (E := fun _ _ => False) ⟨rfl, rfl⟩).bind ?_ fun _ _ hF => hF.elim
  rintro _ _ ⟨rfl, rfl⟩
  dsimp only
  rw [if_neg (Nat.not_lt.2 hle)]
  refine ends_cut (w := { w₁ with disk := d }) hlink (hsd.there _ id hlink) hif
    fun w₃ h₃ hl hx => ?_
  have h₃ := hch₂.trans h₃
  refine (Op.ends_addHead s.pos w₃).bind ?_ fun _ _ hF => hF.elim
  rintro _ _ ⟨rfl, rfl⟩
  exact ends_pure ⟨rfl, hreach, h₃.trans (Op.changes_addHead _ w₃), hl, by simp,
    h₃.headsGrown, x, hx, hsize, hbytes⟩

theorem Opened.after_idle {w₁ w' : World} {b : Buffer} (hi : Idle w w₁)
    (h : Opened cfg q s w₁ b w') : Opened cfg q s w b w' :=
  ⟨h.state, h.reaches, hi.changes.trans h.changes, h.linked, h.head, hi.heads ▸ h.fresh,
    hi.disk ▸ h.content⟩

theorem ends_create (hs : w.disk.Sound) (hq : w.disk.enter cfg.path = .ok q) (start : Nat) :
    Ends (create cfg start) w
      (fun b w' => ∃ salt, Opened cfg q (.fresh start cfg.capacity salt) w b w')
      fun stop w' => Idle w w' ∧ Failed w stop := by
  refine (Op.ends_drawSalt w).bind (fun salt w₁ hi => ?_) fun _ _ hF => hF.elim
  refine (ends_resume (s := .fresh start cfg.capacity salt) (hi.disk ▸ hs) (hi.disk ▸ hq)
    (LogName.live start).plain (.inl rfl)).mono ?_ ?_
  · intro b w' ho
    exact ⟨salt, ho.after_idle hi⟩
  · rintro stop w' ⟨hi', hf, -⟩
    exact ⟨hi.trans hi', fun hr => hf (hi.returns hr)⟩

theorem Opened.carries_nil {c : Cipher} {b : Buffer} {w' : World} (h : Opened cfg q s w b w')
    (hs : w'.disk.Sound) (h0 : s.pos = 0) : b.Carries c [] w' := by
  obtain ⟨x, hx, hsize, -⟩ := h.content
  have hpos : b.pos = s.pos := congrArg BufferState.pos h.state
  refine ⟨by simp [hpos, h0], hpos ▸ h.head, hs.there _ _ h.linked, x, hx, ?_⟩
  refine List.length_eq_zero_iff.1 ?_
  rw [Sparse.length_toBytes, hsize, h0]

end Buffer

end RecordLog
