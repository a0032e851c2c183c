import Mathlib
import RecordLog.Proofs.Enciphered
import RecordLog.Proofs.OpenFiles

/-!
# The file of the live segment

`Buffer.Carries` says that the file of a live segment holds pieces of plain bytes, each encoded
where it lies, and nothing else. Appending adds a piece or leaves the file as it was, cutting back
takes pieces away, and reading gives all of them.
-/

namespace RecordLog

open World

namespace Buffer

variable {cfg : Config} {c : Cipher} {b : Buffer} {pieces more : List Bytes} {w w' : World}

/-- The file of a live segment holds encoded pieces, and its head stands behind the last one. -/
structure Carries (c : Cipher) (b : Buffer) (pieces : List Bytes) (w : World) : Prop where
  pos : b.pos = pieces.flatten.length
  head : w.heads[b.head]? = some b.pos
  there : b.handle < w.disk.files.length
  written : ∃ x, w.disk.content b.handle = .bytes x ∧ Written c b.id 0 pieces x.toBytes

def footprint (b : Buffer) : Footprint := { files := [b.handle], heads := [b.head] }

namespace Carries

theorem size_eq {x : Sparse} (h : Carries c b pieces w) (hx : w.disk.content b.handle = .bytes x) :
    x.size = b.pos := by
  obtain ⟨y, hy, hw⟩ := h.written
  rw [hx] at hy
  cases hy
  rw [← Sparse.length_toBytes, hw.length_eq, h.pos]

theorem head_lt (h : Carries c b pieces w) : b.head < w.heads.length := by
  by_contra hge
  have := h.head
  rw [List.getElem?_eq_none (Nat.le_of_not_lt hge)] at this
  cases this

theorem frame (h : Carries c b pieces w) (hc : w'.disk.content b.handle = w.disk.content b.handle)
    (hh : w'.heads[b.head]? = w.heads[b.head]?)
    (hl : w.disk.files.length ≤ w'.disk.files.length) : Carries c b pieces w' where
  pos := h.pos
  head := hh.trans h.head
  there := h.there.trans_le hl
  written := hc ▸ h.written

theorem idle (h : Carries c b pieces w) (hi : Idle w w') : Carries c b pieces w' :=
  h.frame (by rw [hi.disk]) (by rw [hi.heads]) (by rw [hi.disk])

theorem rewritten {x : Sparse} {n : Nat} {xs : List Bytes} {b' : Buffer}
    (h : Carries c b pieces w) (hb : b' = { b with pos := n })
    (hn : n = xs.flatten.length) (hx : Written c b.id 0 xs x.toBytes) :
    Carries c b' xs (w.rewrite b.handle x b.head n) := by
  subst hb
  exact ⟨hn, heads_rewrite h.head_lt, by simpa [World.rewrite] using h.there,
    x, content_rewrite h.there, hx⟩

theorem changes {x : Sparse} {n : Nat} : World.Changes b.footprint w (w.rewrite b.handle x b.head n) :=
  changes_rewrite (by simp [footprint]) (.inl (by simp [footprint]))

end Carries

theorem ends_rewind {x : Sparse} {p : Nat} (hx : w.disk.content b.handle = .bytes x)
    (hp : p ≤ b.pos) (hle : p ≤ x.size) :
    Ends (b.rewind p) w
      (fun b' w' => b' = { b with pos := p } ∧ ∃ y, w' = w.rewrite b.handle y b.head p ∧
        y.toBytes = x.toBytes.take p)
      fun _ _ => False := by
  have hset : w.disk.setSize b.handle p =
      .ok (w.disk.setContent b.handle (.bytes (x.resize p))) := by
    simp [Disk.setSize, hx, Content.setSize, Except.map]
  refine ends_of_eq_ok (a := { b with pos := p }) (t := w.rewrite b.handle (x.resize p) b.head p)
    ?_ ⟨rfl, x.resize p, rfl, ?_⟩
  · simp only [rewind, Nat.min_eq_left hp, bind, EStateM.bind, modify, modifyGet,
      MonadStateOf.modifyGet, EStateM.modifyGet, pure, EStateM.pure, hset, World.rewrite]
  · rw [Sparse.toBytes_resize, Nat.sub_eq_zero_of_le hle]
    simp

theorem ends_rewind_pieces (h : Carries c b (pieces ++ more) w) {p : Nat}
    (hp : p = pieces.flatten.length) :
    Ends (b.rewind p) w
      (fun b' w' => b' = { b with pos := p } ∧ Carries c b' pieces w' ∧
        World.Changes b.footprint w w')
      fun _ _ => False := by
  obtain ⟨x, hx, hw⟩ := h.written
  have hle : p ≤ b.pos := by
    rw [h.pos, hp, List.flatten_append, List.length_append]
    exact Nat.le_add_right _ _
  refine (ends_rewind hx hle (by rw [h.size_eq hx]; exact hle)).mono ?_ fun _ _ hF => hF
  rintro b' w' ⟨hb, y, rfl, hy⟩
  refine ⟨hb, h.rewritten hb hp ?_, Carries.changes⟩
  rw [hy, hp]
  exact hw.take

theorem ends_rewind_struck {x y : Sparse} {n : Nat} (h : Carries c b pieces w)
    (hx : w.disk.content b.handle = .bytes x) (hpre : x.toBytes <+: y.toBytes) :
    Ends (b.rewind b.pos) (w.rewrite b.handle y b.head n)
      (fun _ w' => Carries c b pieces w' ∧ World.Changes b.footprint w w') fun _ _ => False := by
  obtain ⟨x', hx', hw⟩ := h.written
  rw [hx] at hx'
  cases hx'
  have hsize := h.size_eq hx
  have hle : b.pos ≤ y.size := by
    rw [← hsize, ← Sparse.length_toBytes, ← Sparse.length_toBytes]
    exact hpre.length_le
  refine (ends_rewind (content_rewrite h.there) (Nat.le_refl _) hle).mono ?_ fun _ _ hF => hF
  rintro _ w' ⟨-, z, rfl, hz⟩
  have hcut : z.toBytes = x.toBytes := by
    rw [hz, ← hsize, ← Sparse.length_toBytes]
    exact (List.prefix_iff_eq_take.1 hpre).symm
  have hthere : b.handle < (w.rewrite b.handle y b.head n).disk.files.length := by
    simpa [World.rewrite] using h.there
  exact ⟨⟨h.pos, heads_rewrite (by simpa [World.rewrite] using h.head_lt),
    by simpa [World.rewrite] using hthere, z, content_rewrite hthere, hcut ▸ hw⟩,
    Carries.changes.trans Carries.changes⟩

/-- All of the bytes become a piece, or the file is as it was. -/
theorem ends_append (hc : cfg.cipher.Lawful) (h : Carries cfg.cipher b pieces w) (hr : w.Returns)
    (operation : String) (data : Bytes) :
    Ends (b.append cfg operation data) w
      (fun b' w' => b' = { b with pos := b.pos + data.length } ∧
        Carries cfg.cipher b' (pieces ++ [data]) w' ∧ World.Changes b.footprint w w')
      fun stop w' => (∃ e, stop = .error e) ∧ Carries cfg.cipher b pieces w' ∧
        World.Changes b.footprint w w' := by
  refine (Op.ends_encodeAt cfg.cipher b.id b.pos data w).bind (fun encoded w₁ h₁ => ?_) ?_
  swap
  · rintro stop w' ⟨hi, hf⟩
    exact ⟨hf hr, h.idle hi, hi.changes⟩
  obtain ⟨hi, henc⟩ := h₁
  have h₁ := h.idle hi
  obtain ⟨x, hx, hw⟩ := h₁.written
  have hsize := h₁.size_eq hx
  have hlen : encoded.length = data.length := hc.length_encodeAt _ _ _ _ henc
  refine Ends.bind
    (P := fun _ w' => Carries cfg.cipher { b with pos := b.pos + data.length } (pieces ++ [data]) w' ∧
      World.Changes b.footprint w₁ w')
    (F := fun stop w' => (∃ e, stop = .error e) ∧ Carries cfg.cipher b pieces w' ∧
      World.Changes b.footprint w₁ w') ?_ (fun _ w₂ h₂ => ?_) ?_
  · refine Ends.catch_stop (F := fun stop w' => ∃ w₂ y n, Idle w₁ w₂ ∧
      w' = w₂.rewrite b.handle y b.head n ∧ x.toBytes <+: y.toBytes ∧ Failed w₁ stop) ?_ ?_
    · refine (Op.ends_writeFile _ _ hx (by rw [h₁.head, hsize])).mono ?_ ?_
      · rintro _ _ ⟨w₂, y, hi₂, rfl, hy⟩
        refine ⟨(h₁.idle hi₂).rewritten (by rw [hsize, hlen]) ?_ ?_, hi₂.changes.trans Carries.changes⟩
        · rw [hsize, hlen, h₁.pos]
          simp
        · rw [hy]
          refine hw.snoc hc ?_
          rw [Nat.zero_add, ← h₁.pos]
          exact henc
      · rintro stop _ ⟨w₂, y, n, hi₂, hw', hpre, hf, -⟩
        exact ⟨w₂, y, n, hi₂, hw', hpre, hf⟩
    · rintro stop _ ⟨w₂, y, n, hi₂, rfl, hpre, hf⟩
      obtain ⟨e, rfl⟩ := hf (hi.returns hr)
      refine (ends_rewind_struck (h₁.idle hi₂) (hi₂.disk ▸ hx) hpre).bind ?_ fun _ _ hF => hF.elim
      rintro _ w' ⟨hcar, hch⟩
      exact ends_throw ⟨⟨e, rfl⟩, hcar, hi₂.changes.trans hch⟩
  · refine (Op.ends_trace _ w₂).bind (fun _ w₃ h₃ => ?_) fun _ _ hF => hF.elim
    exact ends_pure ⟨rfl, h₂.1.idle h₃, hi.changes.trans (h₂.2.trans h₃.changes)⟩
  · rintro stop w' ⟨he, hcar, hch⟩
    exact ⟨he, hcar, hi.changes.trans hch⟩

theorem ends_flush (h : Carries c b pieces w) :
    Ends (b.flush cfg) w (fun _ w' => w' = w) fun _ _ => False := by
  obtain ⟨x, hx, -⟩ := h.written
  unfold flush
  split
  · refine (Op.ends_lookAtDisk _ _ w).mono (fun _ _ h => h.1) ?_
    rintro _ _ ⟨-, cause, hs, -⟩
    simp [Disk.sync, hx, Content.sync] at hs
  · exact ends_pure rfl

theorem Carries.content_eq (cfg : Config) (h : Carries c b pieces w) :
    ∃ x, w.disk.content b.handle = .bytes x ∧ Written c b.id 0 pieces x.toBytes ∧
      b.content cfg w = Op.decodeAt cfg.cipher b.id 0 x.toBytes w := by
  obtain ⟨x, hx, hw⟩ := h.written
  refine ⟨x, hx, hw, ?_⟩
  have hall : x.range 0 b.pos = x.toBytes := by
    rw [Sparse.range_eq, List.drop_zero, ← h.size_eq hx, ← Sparse.length_toBytes, List.take_length]
  have hlen : x.toBytes.length = b.pos := by rw [Sparse.length_toBytes, h.size_eq hx]
  have hhead : w.heads.set b.head b.pos = w.heads := by
    obtain ⟨hlt, hget⟩ := List.getElem?_eq_some_iff.1 h.head
    rw [← hget, List.set_getElem_self]
  have hstart : ({ w with heads := w.heads.set b.head 0 } : World).heads[b.head]? = some 0 := by
    simp [h.head_lt]
  simp only [content, Op.seek, Op.readFile, bind, EStateM.bind, modify, modifyGet,
    MonadStateOf.modifyGet, EStateM.modifyGet, Op.offsetOf_eq hstart, get, getThe,
    MonadStateOf.get, EStateM.get, pure, EStateM.pure, hx, Content.range, hall, hlen, if_true,
    List.set_set, Nat.zero_add, hhead]

/-- Reading gives the pieces. -/
theorem ends_content (hc : cfg.cipher.Lawful) (h : Carries cfg.cipher b pieces w) :
    Ends (b.content cfg) w (fun bytes w' => Idle w w' ∧ bytes = pieces.flatten)
      fun stop w' => Idle w w' ∧ Failed w stop := by
  obtain ⟨x, -, hw, heq⟩ := h.content_eq cfg
  have hd := Op.ends_decodeAt cfg.cipher b.id 0 x.toBytes w
  cases hr : Op.decodeAt cfg.cipher b.id 0 x.toBytes w with
  | ok a w' =>
    obtain ⟨hi, hdec⟩ := hd.ok hr
    refine ends_of_eq_ok (heq.trans hr) ⟨hi, ?_⟩
    by_cases hne : pieces = []
    · subst hne
      have : x.toBytes = [] := hw
      have hl := hc.length_decodeAt _ _ _ _ hdec
      rw [this] at hl
      simpa using hl
    · rw [hw.decodeAt_eq hc hne] at hdec
      exact (Except.ok.inj hdec).symm
  | error stop w' => exact ends_of_eq_error (heq.trans hr) (hd.error hr)

end Buffer

end RecordLog
