import Mathlib
import RecordLog.Proofs.Runs

/-!
# What operations leave alone

Whatever an operation comes to, and whatever state it is begun in, no watermark but that of its
writer is moved, and an index that was opened stays there, closed for good once it is. Bytes are
encoded for a live file by appends alone; all else is `Quiet`. `Within` says of an operation that it
keeps to such a relation, and it goes along with the way operations are put together.
-/

namespace RecordLog

section within

variable {ε σ α β : Type} {R : σ → σ → Prop} {x : EStateM ε σ α} {s s' : σ}

/-- Wherever an operation ends, it ends in a state that is related to the one it began in. -/
def Within (R : σ → σ → Prop) (x : EStateM ε σ α) : Prop :=
  ∀ s, Ends x s (fun _ s' => R s s') fun _ s' => R s s'

theorem within_modify {f : σ → σ} (h : ∀ s, R s (f s)) :
    Within R (modify f : EStateM ε σ PUnit) := fun s => ends_modify (h s)

theorem within_pure [Std.Refl R] (a : α) : Within R (pure a : EStateM ε σ α) :=
  fun s => ends_pure (Std.Refl.refl s)

theorem within_throw [Std.Refl R] (e : ε) : Within R (throw e : EStateM ε σ α) :=
  fun s => ends_throw (Std.Refl.refl s)

theorem within_get [Std.Refl R] : Within R (get : EStateM ε σ σ) :=
  fun s => ends_get (Std.Refl.refl s)

theorem Within.map (f : α → β) (h : Within R x) : Within R (f <$> x) := by
  intro s
  cases hx : x s with
  | ok a s' =>
    exact ends_of_eq_ok (a := f a) (t := s') (by simp only [Functor.map, EStateM.map, hx])
      ((h s).ok hx)
  | error e s' =>
    exact ends_of_eq_error (e := e) (t := s') (by simp only [Functor.map, EStateM.map, hx])
      ((h s).error hx)

theorem Within.mono {R' : σ → σ → Prop} (h : Within R x) (hR : ∀ s s', R s s' → R' s s') :
    Within R' x :=
  fun s => (h s).mono (fun _ s' => hR s s') fun _ s' => hR s s'

variable [IsTrans σ R]

theorem Within.bind {f : α → EStateM ε σ β} (h : Within R x) (hf : ∀ a, Within R (f a)) :
    Within R (x >>= f) := by
  intro s
  refine (h s).bind (fun a s₁ h₁ => ?_) fun _ _ h₁ => h₁
  exact (hf a s₁).mono (fun _ _ h₂ => IsTrans.trans _ _ _ h₁ h₂)
    fun _ _ h₂ => IsTrans.trans _ _ _ h₁ h₂

theorem Within.catch_stop {f : ε → EStateM ε σ α} (h : Within R x) (hf : ∀ e, Within R (f e)) :
    Within R (tryCatch x f) := by
  intro s
  refine (h s).catch_stop fun e s₁ h₁ => ?_
  exact (hf e s₁).mono (fun _ _ h₂ => IsTrans.trans _ _ _ h₁ h₂)
    fun _ _ h₂ => IsTrans.trans _ _ _ h₁ h₂

end within

/-- Plain bytes that were given to a cipher for a live file: under which key stream, and from which
offset on. -/
structure Piece where
  id : SegmentId
  offset : Nat
  data : Bytes
  deriving Repr, DecidableEq

def Event.piece? : Event → Option Piece
  | .encodeAt id offset data => some ⟨id, offset, data⟩
  | _ => none

namespace World

/-- All that was encoded for live files so far, in order. -/
def pieces (w : World) : List Piece := w.events.toList.filterMap Event.piece?

/-- Watermarks stay what they are, and indexes stay there, closed for good once they are. -/
structure Steady (w w' : World) : Prop where
  marks : w.marks <+: w'.marks
  stores : ∀ (i : Nat) (s : Store), w.stores[i]? = some s →
    ∃ s' : Store, w'.stores[i]? = some s' ∧ (s.closed = true → s'.closed = true)

/-- And nothing is encoded for a live file. -/
structure Quiet (w w' : World) : Prop extends Steady w w' where
  pieces : w'.pieces = w.pieces

namespace Steady

theorem refl (w : World) : Steady w w := ⟨List.prefix_refl _, fun _ s hs => ⟨s, hs, fun h => h⟩⟩

theorem trans {w w' w'' : World} (h : Steady w w') (h' : Steady w' w'') : Steady w w'' := by
  refine ⟨h.marks.trans h'.marks, fun i s hs => ?_⟩
  obtain ⟨s', hs', hc⟩ := h.stores i s hs
  obtain ⟨s'', hs'', hc'⟩ := h'.stores i s' hs'
  exact ⟨s'', hs'', hc' ∘ hc⟩

theorem mark_eq {w w' : World} (h : Steady w w') {i : Nat} (hi : i < w.marks.length) :
    w'.marks[i]? = w.marks[i]? := by
  obtain ⟨more, hmore⟩ := h.marks
  rw [← hmore, List.getElem?_append_left hi]

end Steady

theorem Quiet.refl (w : World) : Quiet w w := ⟨.refl w, rfl⟩

theorem Quiet.trans {w w' w'' : World} (h : Quiet w w') (h' : Quiet w' w'') : Quiet w w'' :=
  ⟨h.toSteady.trans h'.toSteady, h'.pieces.trans h.pieces⟩

instance : Std.Refl Steady := ⟨Steady.refl⟩

instance : IsTrans World Steady := ⟨fun _ _ _ => Steady.trans⟩

instance : Std.Refl Quiet := ⟨Quiet.refl⟩

instance : IsTrans World Quiet := ⟨fun _ _ _ => Quiet.trans⟩

variable {w w' : World}

theorem Quiet.of_added (hm : w.marks <+: w'.marks) (hs : w.stores <+: w'.stores)
    (he : w'.events = w.events) : Quiet w w' := by
  refine ⟨⟨hm, fun i s h => ⟨s, ?_, fun h => h⟩⟩, by rw [World.pieces, he, World.pieces]⟩
  obtain ⟨more, hmore⟩ := hs
  obtain ⟨hlt, -⟩ := List.getElem?_eq_some_iff.1 h
  rw [← hmore, List.getElem?_append_left hlt, h]

theorem Quiet.of_same (hm : w'.marks = w.marks) (hs : w'.stores = w.stores)
    (he : w'.events = w.events) : Quiet w w' :=
  .of_added (hm ▸ List.prefix_refl _) (hs ▸ List.prefix_refl _) he

theorem Idle.steady (h : Idle w w') : Steady w w' :=
  ⟨h.marks ▸ List.prefix_refl _, fun _ s hs => ⟨s, h.stores ▸ hs, fun h => h⟩⟩

theorem Quiet.set {id : StoreId} {s s' : Store} (hs : w.stores[id]? = some s)
    (hc : s.closed = true → s'.closed = true) : Quiet w { w with stores := w.stores.set id s' } := by
  refine ⟨⟨List.prefix_refl _, fun i t ht => ?_⟩, rfl⟩
  by_cases hi : id = i
  · subst hi
    rw [hs] at ht
    cases ht
    obtain ⟨hlt, -⟩ := List.getElem?_eq_some_iff.1 hs
    exact ⟨s', List.getElem?_set_self hlt, hc⟩
  · exact ⟨t, by simpa only [List.getElem?_set_ne hi] using ht, fun h => h⟩

theorem quiet_under (id : StoreId) (k : Circumstances) : Quiet w (w.under id k) := by
  refine ⟨⟨List.prefix_refl _, fun i s hs => ?_⟩, rfl⟩
  refine ⟨if id = i then { s with failCommits := k.refuses } else s, ?_, ?_⟩
  · simp only [World.under, List.getElem?_modify, hs]
    split <;> rfl
  · split <;> exact fun h => h

theorem pieces_push (w : World) (e : Event) :
    World.pieces { w with events := w.events.push e } = w.pieces ++ e.piece?.toList := by
  simp only [World.pieces, Array.toList_push, List.filterMap_append, List.filterMap_cons,
    List.filterMap_nil]
  cases e.piece? <;> rfl

end World

open World

namespace Op

variable {α : Type}

theorem quiet_ofExcept (r : Except Error α) : Within Quiet (ofExcept r) := by
  cases r with
  | ok a => exact within_pure a
  | error e => exact within_throw _

theorem quiet_strike (h : Hook) : Within Quiet (strike h) := by
  intro w
  cases hf : w.faults.get? h with
  | none => exact ends_of_eq_ok (a := none) (t := w) (by simp only [strike, hf]) (Quiet.refl w)
  | some f =>
    cases ha : f.after with
    | zero =>
      exact ends_of_eq_ok (a := some f) (t := w) (by simp only [strike, hf, ha]) (Quiet.refl w)
    | succ n =>
      exact ends_of_eq_ok (a := none)
        (t := { w with faults := w.faults.insert h { f with after := n } })
        (by simp only [strike, hf, ha]) (.of_same rfl rfl rfl)

theorem quiet_struck (f : Fault) (e : Error) : Within Quiet (struck f e : Op α) := within_throw _

theorem quiet_pass (h : Hook) : Within Quiet (pass h) :=
  (quiet_strike h).bind fun struck => by
    cases struck with
    | none => exact within_pure _
    | some f => exact quiet_struck f _

theorem quiet_passDisk (h : Hook) (operation : String) : Within Quiet (passDisk h operation) :=
  (quiet_strike h).bind fun struck => by
    cases struck with
    | none => exact within_pure _
    | some f => exact quiet_struck f _

theorem quiet_trace {e : Event} (he : e.piece? = none) : Within Quiet (trace e) :=
  within_modify fun w => ⟨⟨List.prefix_refl _, fun _ s hs => ⟨s, hs, fun h => h⟩⟩,
    by rw [pieces_push, he]; exact List.append_nil _⟩

/-- Every call that encodes nothing for a live file has this shape. -/
theorem quiet_call {e : Event} (he : e.piece? = none) (h : Hook) (r : Except Error α) :
    Within Quiet (do trace e; pass h; ofExcept r) :=
  (quiet_trace he).bind fun _ => (quiet_pass h).bind fun _ => quiet_ofExcept r

theorem quiet_compress (c : Compressor) (data : Bytes) : Within Quiet (compress c data) :=
  quiet_call rfl _ _

theorem quiet_encrypt (c : Cipher) (data : Bytes) : Within Quiet (encrypt c data) :=
  (quiet_trace rfl).bind fun _ => (quiet_pass _).bind fun _ =>
    Within.bind (fun _ => ends_of_eq_ok rfl (.of_same rfl rfl rfl)) fun _ => quiet_ofExcept _

theorem steady_encodeAt (c : Cipher) (id : SegmentId) (offset : Nat) (data : Bytes) :
    Within Steady (encodeAt c id offset data) :=
  fun w => (ends_encodeAt c id offset data w).mono (fun _ _ hi => hi.1.steady)
    fun _ _ hi => hi.1.steady

theorem ends_encodeAt_pieces (c : Cipher) (id : SegmentId) (offset : Nat) (data : Bytes)
    (w : World) :
    Ends (encodeAt c id offset data) w (fun _ w' => w'.pieces = w.pieces ++ [⟨id, offset, data⟩])
      fun _ w' => w'.pieces = w.pieces ++ [⟨id, offset, data⟩] := by
  refine ends_modify_bind (((quiet_pass .encodeAt).bind (fun _ => quiet_ofExcept _) _).mono ?_ ?_)
  · intro _ _ hq
    exact hq.pieces.trans (pieces_push w _)
  · intro _ _ hq
    exact hq.pieces.trans (pieces_push w _)

theorem quiet_decodeAt (c : Cipher) (id : SegmentId) (offset : Nat) (data : Bytes) :
    Within Quiet (decodeAt c id offset data) :=
  quiet_call rfl _ _

theorem quiet_drawSalt : Within Quiet drawSalt := fun _ => ends_of_eq_ok rfl (.of_same rfl rfl rfl)

theorem quiet_onDisk (operation : String) (f : Disk → Except IoCause (α × Disk)) :
    Within Quiet (onDisk operation f) := by
  intro w
  refine (ends_onDisk operation f w).mono ?_ ?_
  · rintro _ _ ⟨d, -, rfl⟩
    exact .of_same rfl rfl rfl
  · rintro _ _ ⟨rfl, -⟩
    exact Quiet.refl _

theorem quiet_lookAtDisk (operation : String) (f : Disk → Except IoCause α) :
    Within Quiet (lookAtDisk operation f) := quiet_onDisk _ _

theorem quiet_changeDisk (operation : String) (f : Disk → Except IoCause Disk) :
    Within Quiet (changeDisk operation f) := quiet_onDisk _ _

theorem quiet_makeFolders (operation : String) (p : Path) :
    Within Quiet (makeFolders operation p) := by
  intro w
  cases hd : w.disk.createFolders p with
  | mk cause disk =>
    cases cause with
    | none =>
      exact ends_of_eq_ok (a := ()) (t := { w with disk }) (by simp only [makeFolders, hd])
        (.of_same rfl rfl rfl)
    | some cause =>
      exact ends_of_eq_error (e := .error (.io operation cause)) (t := { w with disk })
        (by simp only [makeFolders, hd]) (.of_same rfl rfl rfl)

theorem quiet_addHead (offset : Nat) : Within Quiet (addHead offset) :=
  fun _ => ends_of_eq_ok rfl (.of_same rfl rfl rfl)

theorem quiet_seek (head : HeadId) (offset : Nat) : Within Quiet (seek head offset) :=
  within_modify fun _ => .of_same rfl rfl rfl

theorem quiet_offsetOf (head : HeadId) : Within Quiet (offsetOf head) :=
  within_get.bind fun _ => within_pure _

theorem quiet_readFile (id : FileId) (head : HeadId) (count : Nat) :
    Within Quiet (readFile id head count) :=
  (quiet_offsetOf head).bind fun _ => within_get.bind fun _ =>
    (quiet_seek head _).bind fun _ => within_pure _

theorem quiet_putBytes (operation : String) (id : FileId) (head : HeadId) (data : Bytes) :
    Within Quiet (putBytes operation id head data) :=
  (quiet_offsetOf head).bind fun _ => (quiet_changeDisk operation _).bind fun _ =>
    quiet_seek head _

theorem quiet_writeFile (operation : String) (id : FileId) (head : HeadId) (data : Bytes) :
    Within Quiet (writeFile operation id head data) := by
  refine (quiet_strike .write).bind fun struck => ?_
  cases struck with
  | none => exact quiet_putBytes operation id head data
  | some f =>
    exact (quiet_putBytes operation id head _).bind fun _ =>
      (within_throw _).bind fun _ => quiet_putBytes operation id head data

theorem quiet_discard (p : Path) : Within Quiet (discard p) := by
  refine (quiet_strike .remove).bind fun struck => ?_
  cases struck with
  | none =>
    refine within_modify fun w => ?_
    cases w.disk.remove p <;> exact .of_same rfl rfl rfl
  | some f =>
    dsimp only
    split
    · exact within_throw _
    · exact within_pure _

end Op

namespace Store

variable {α : Type} {id : StoreId}

theorem quiet_lookup (id : StoreId) : Within Quiet (lookup id) := by
  intro w
  unfold lookup
  cases hs : w.stores[id]? with
  | none =>
    exact ends_of_eq_error (e := .error .closed) (t := w) (by simp only [hs]) (Quiet.refl w)
  | some s => exact ends_of_eq_ok (a := s) (t := w) (by simp only [hs]) (Quiet.refl w)

theorem quiet_begin (id : StoreId) (h : Hook) : Within Quiet (begin id h) := by
  have hcheck : Within Quiet (do
      let s ← lookup id
      Op.ofExcept s.check
      pure (s.tables (← get).disk)) :=
    (quiet_lookup id).bind fun s => (Op.quiet_ofExcept s.check).bind fun _ =>
      within_get.bind fun _ => within_pure _
  refine (quiet_lookup id).bind fun s => ?_
  split
  · split
    · exact (Op.quiet_trace rfl).bind fun _ => (Op.quiet_pass h).bind fun _ => hcheck
    · exact (Op.quiet_pass h).bind fun _ => hcheck
  · exact hcheck

theorem quiet_lookup_bind {f : Store → Op α}
    (h : ∀ (w : World) (s : Store), w.stores[id]? = some s →
      Ends (f s) w (fun _ w' => Quiet w w') fun _ w' => Quiet w w') :
    Within Quiet (lookup id >>= f) := by
  intro w
  cases hs : w.stores[id]? with
  | none =>
    have hlookup : (lookup id >>= f) w = .error (.error .closed) w := by
      simp only [bind, EStateM.bind, lookup, hs]
    exact ends_of_eq_error hlookup (Quiet.refl w)
  | some s => exact Ends.bind_of_eq (by simp only [lookup, hs]) (h w s hs)

theorem quiet_commit (id : StoreId) (t : Tables) : Within Quiet (commit id t) := by
  refine quiet_lookup_bind fun w s hs => ?_
  cases hf : s.failCommits with
  | true =>
    simp only [if_true]
    exact ends_of_eq_error rfl (Quiet.refl w)
  | false =>
    simp only [Bool.false_eq_true, if_false]
    split
    · exact ends_modify (World.Quiet.set hs fun h => h)
    · exact ends_modify (.of_same rfl rfl rfl)
    · exact ends_pure (Quiet.refl w)

theorem quiet_abandon (id : StoreId) (stop : Stop) : Within Quiet (abandon id stop : Op α) := by
  refine quiet_lookup_bind fun w s hs => ?_
  split
  · exact ends_modify_bind (ends_throw (World.Quiet.set hs fun h => h))
  · exact ends_throw (Quiet.refl w)

theorem quiet_within (id : StoreId) {work : Tables → Op (α × Tables)}
    (h : ∀ t, Within Quiet (work t)) : Within Quiet (within id work) :=
  (quiet_begin id .update).bind fun t => ((h t).catch_stop fun stop => quiet_abandon id stop).bind
    fun _ => (quiet_commit id _).bind fun _ => within_pure _

theorem update_eq (id : StoreId) (p : Program α) :
    update id p = begin id .update >>= fun t =>
      match (t.run p).2 with
      | .error stop => abandon id stop
      | .ok (a, t) => commit id t >>= fun _ => pure a := by
  funext w
  simp only [update, transact, bind, EStateM.bind]
  cases begin id .update w with
  | error stop w₁ => rfl
  | ok t w₁ =>
    dsimp only
    rcases t.run p with ⟨answers, stop | ⟨a, t'⟩⟩
    · rfl
    · simp only [SeqRight.seqRight]
      rfl

theorem quiet_update (id : StoreId) (p : Program α) : Within Quiet (update id p) := by
  rw [update_eq]
  refine (quiet_begin id .update).bind fun t => ?_
  split
  · exact quiet_abandon id _
  · exact (quiet_commit id _).bind fun _ => within_pure _

theorem quiet_openFile (folder : Path) : Within Quiet (openFile folder) := by
  refine (Op.quiet_makeFolders _ _).bind fun _ => ?_
  intro w
  refine Ends.bind_of_eq (a := w) (t := w) rfl ?_
  have hrefused {β : Type} (message : String) (f : Unit → Op β) :
      Ends (Op.fail (.database message) >>= f) w (fun _ w' => Quiet w w') fun _ w' => Quiet w w' :=
    ends_of_eq_error rfl (Quiet.refl w)
  have hadded (disk : Disk) (s : Store) :
      Ends (set { w with disk } >>= fun _ => add s : Op StoreId) w (fun _ w' => Quiet w w')
        fun _ w' => Quiet w w' :=
    ends_of_eq_ok rfl (.of_added (List.prefix_refl _) (List.prefix_append _ _) rfl)
  cases w.disk.openOrCreate (Path.join folder indexFileName) with
  | error cause => exact ends_of_eq_error rfl (Quiet.refl w)
  | ok opened =>
    obtain ⟨file, disk⟩ := opened
    dsimp only
    split
    · exact hrefused _ _
    · split
      · split
        · exact hadded _ _
        · exact hrefused _ _
      · split
        · exact hadded _ _
        · exact hrefused _ _
      · exact hrefused _ _

theorem quiet_close (id : StoreId) : Within Quiet (close id) := by
  refine within_modify fun w => ?_
  split
  · rename_i s hs
    exact World.Quiet.set hs fun _ => rfl
  · exact Quiet.refl w

end Store

theorem Chunk.quiet_persist (cfg : Config) (start : Nat) (bytes : Bytes) :
    Within Quiet (persist cfg start bytes) := by
  refine (Op.quiet_passDisk _ _).bind fun _ => (Op.quiet_onDisk _ _).bind fun id =>
    (Op.quiet_addHead 0).bind fun head => (Op.quiet_writeFile _ id head bytes).bind fun _ => ?_
  have hrename : Within Quiet (do
      Op.passDisk .rename "rename chunk"
      Op.changeDisk "rename chunk"
        (·.rename (cfg.locate (draftFileName start)) (cfg.locate (chunkFileName start)))
      pure bytes.length) :=
    (Op.quiet_passDisk _ _).bind fun _ => (Op.quiet_changeDisk _ _).bind fun _ => within_pure _
  split
  · exact (Op.quiet_lookAtDisk _ _).bind fun _ => hrename
  · exact hrename

namespace Buffer

variable (cfg : Config) (b : Buffer)

theorem quiet_resume (s : BufferState) : Within Quiet (resume cfg s) := by
  have hhead (id : FileId) : Within Quiet (do pure (⟨s, id, ← Op.addHead s.pos⟩ : Buffer)) :=
    (Op.quiet_addHead s.pos).bind fun _ => within_pure _
  have hcut (id : FileId) (size : Nat) : Within Quiet (do
      if s.pos < size then Op.changeDisk "truncate buffer" (·.setSize id s.pos)
      pure (⟨s, id, ← Op.addHead s.pos⟩ : Buffer)) := by
    split
    · exact (Op.quiet_changeDisk _ _).bind fun _ => hhead id
    · exact hhead id
  refine (Op.quiet_passDisk _ _).bind fun _ => (Op.quiet_onDisk _ _).bind fun id =>
    within_get.bind fun w => ?_
  dsimp only
  split
  · exact (within_throw _).bind fun _ => hcut id _
  · exact hcut id _

theorem quiet_create (start : Nat) : Within Quiet (create cfg start) :=
  Op.quiet_drawSalt.bind fun _ => quiet_resume cfg _

theorem quiet_rewind (pos : Nat) : Within Quiet (b.rewind pos) := by
  refine Within.bind (within_modify fun w => ?_) fun _ => within_pure _
  split <;> exact .of_same rfl rfl rfl

theorem quiet_put (operation : String) (data encoded : Bytes) :
    Within Quiet (do
      try
        Op.writeFile operation b.handle b.head encoded
      catch
        | .error e =>
          let _ ← b.rewind b.pos
          Op.fail e
        | .crash => throw .crash
      Op.trace (.wrote b.id b.pos data)
      pure ({ b with pos := b.pos + data.length } : Buffer)) := by
  refine Within.bind ((Op.quiet_writeFile _ _ _ _).catch_stop fun stop => ?_) fun _ =>
    (Op.quiet_trace rfl).bind fun _ => within_pure _
  cases stop with
  | error e => exact (b.quiet_rewind _).bind fun _ => within_throw _
  | crash => exact within_throw _

theorem steady_append (operation : String) (data : Bytes) :
    Within Steady (b.append cfg operation data) :=
  (Op.steady_encodeAt _ _ _ _).bind fun _ => (b.quiet_put operation data _).mono fun _ _ h => h.toSteady

theorem ends_append_pieces (operation : String) (data : Bytes) (w : World) :
    Ends (b.append cfg operation data) w
      (fun _ w' => w'.pieces = w.pieces ++ [⟨b.id, b.pos, data⟩])
      fun _ w' => w'.pieces = w.pieces ++ [⟨b.id, b.pos, data⟩] := by
  refine (Op.ends_encodeAt_pieces _ _ _ _ w).bind (fun encoded w₁ h₁ => ?_) fun _ _ h => h
  exact (b.quiet_put operation data encoded w₁).mono (fun _ _ hq => hq.pieces.trans h₁)
    fun _ _ hq => hq.pieces.trans h₁

theorem quiet_flush : Within Quiet (b.flush cfg) := by
  unfold flush
  split
  · exact Op.quiet_lookAtDisk _ _
  · exact within_pure _

theorem quiet_content : Within Quiet (b.content cfg) := by
  refine (Op.quiet_seek _ _).bind fun _ => (Op.quiet_readFile _ _ _).bind fun bytes =>
    (Op.quiet_seek _ _).bind fun _ => ?_
  split
  · exact Op.quiet_decodeAt _ _ _ _
  · exact within_throw _

theorem quiet_sealed : Within Quiet (b.sealed cfg) :=
  (b.quiet_content cfg).bind fun _ => (Op.quiet_compress _ _).bind fun _ =>
    (Op.quiet_encrypt _ _).bind fun _ => (Chunk.quiet_persist _ _ _).bind fun _ => within_pure _

end Buffer

namespace Writer

theorem ends_marks_resume (config : Config) (store : StoreId) (w : World) :
    Ends (resume config store) w (fun writer w' => Quiet w w' ∧ w.marks.length ≤ writer.mark)
      fun _ w' => Quiet w w' := by
  refine (Store.quiet_within store (fun t => ?_) w).bind (fun opened w₁ h₁ => ?_) fun _ _ h => h
  · refine (Op.quiet_ofExcept _).bind fun stats => (Op.quiet_ofExcept _).bind fun state => ?_
    dsimp only
    split
    · exact (Buffer.quiet_resume config _).bind fun _ => within_pure _
    · exact (Buffer.quiet_create config 0).bind fun _ => (Op.quiet_ofExcept _).bind fun _ =>
        within_pure _
  · have hpush : Quiet w₁ { w₁ with marks := w₁.marks ++ [opened.1.watermark] } :=
      .of_added (List.prefix_append _ _) (List.prefix_refl _) rfl
    exact ends_of_eq_ok rfl ⟨h₁.trans hpush, h₁.marks.length_le⟩

theorem ends_marks_openFolder (config : Config) (w : World) :
    Ends (openFolder config) w (fun writer w' => Quiet w w' ∧ w.marks.length ≤ writer.mark)
      fun _ w' => Quiet w w' := by
  refine (Op.quiet_makeFolders _ _ w).bind (fun _ w₁ h₁ => ?_) fun _ _ h => h
  refine (Store.quiet_openFile _ w₁).bind (fun id w₂ h₂ => ?_) fun _ _ h => h₁.trans h
  have h₂ := h₁.trans h₂
  refine (ends_marks_resume config id w₂).mono (fun writer w' h => ?_) fun _ _ h => h₂.trans h
  exact ⟨h₂.trans h.1, h₂.marks.length_le.trans h.2⟩

end Writer

namespace Writing

/-- What the operations of a writer leave alone: all watermarks but its own. -/
structure Aside (s s' : Writer × World) : Prop where
  mark : s'.1.mark = s.1.mark
  length : s.2.marks.length ≤ s'.2.marks.length
  marks : ∀ i < s.2.marks.length, i ≠ s.1.mark → s'.2.marks[i]? = s.2.marks[i]?
  stores : ∀ (i : Nat) (t : Store), s.2.stores[i]? = some t →
    ∃ t' : Store, s'.2.stores[i]? = some t' ∧ (t.closed = true → t'.closed = true)

namespace Aside

variable {s s' s'' : Writer × World}

theorem refl (s : Writer × World) : Aside s s :=
  ⟨rfl, Nat.le_refl _, fun _ _ _ => rfl, fun _ t ht => ⟨t, ht, fun h => h⟩⟩

theorem trans (h : Aside s s') (h' : Aside s' s'') : Aside s s'' where
  mark := h'.mark.trans h.mark
  length := h.length.trans h'.length
  marks i hi hne := by
    rw [h'.marks i (hi.trans_le h.length) (h.mark ▸ hne), h.marks i hi hne]
  stores i t ht := by
    obtain ⟨t', ht', hc⟩ := h.stores i t ht
    obtain ⟨t'', ht'', hc'⟩ := h'.stores i t' ht'
    exact ⟨t'', ht'', hc' ∘ hc⟩

end Aside

structure Still (s s' : Writer × World) : Prop extends Aside s s' where
  pieces : s'.2.pieces = s.2.pieces

theorem Still.refl (s : Writer × World) : Still s s := ⟨.refl s, rfl⟩

theorem Still.trans {s s' s'' : Writer × World} (h : Still s s') (h' : Still s' s'') :
    Still s s'' :=
  ⟨h.toAside.trans h'.toAside, h'.pieces.trans h.pieces⟩

instance : Std.Refl Aside := ⟨Aside.refl⟩

instance : IsTrans (Writer × World) Aside := ⟨fun _ _ _ => Aside.trans⟩

instance : Std.Refl Still := ⟨Still.refl⟩

instance : IsTrans (Writer × World) Still := ⟨fun _ _ _ => Still.trans⟩

variable {α : Type}

theorem aside_of_steady {writer writer' : Writer} {w w' : World} (hm : writer'.mark = writer.mark)
    (h : w.Steady w') : Aside (writer, w) (writer', w') where
  mark := hm
  length := h.marks.length_le
  marks _ hi _ := h.mark_eq hi
  stores := h.stores

theorem still_of_quiet {writer writer' : Writer} {w w' : World} (hm : writer'.mark = writer.mark)
    (h : w.Quiet w') : Still (writer, w) (writer', w') :=
  ⟨aside_of_steady hm h.toSteady, h.pieces⟩

theorem aside_onWorld {op : Op α} (h : Within Steady op) : Within Aside (onWorld op) :=
  fun (_, w) => Ends.onWorld ((h w).mono (fun _ _ h => aside_of_steady rfl h)
    fun _ _ h => aside_of_steady rfl h)

theorem still_onWorld {op : Op α} (h : Within Quiet op) : Within Still (onWorld op) :=
  fun (_, w) => Ends.onWorld ((h w).mono (fun _ _ h => still_of_quiet rfl h)
    fun _ _ h => still_of_quiet rfl h)

theorem still_writer : Within Still writer := within_get.bind fun _ => within_pure _

theorem still_setBuffer (buffer : Buffer) : Within Still (setBuffer buffer) :=
  within_modify fun (_, w) => still_of_quiet rfl (.refl w)

theorem still_publish : Within Still publish := by
  refine within_modify fun (writer, w) => ⟨?_, rfl⟩
  refine ⟨rfl, by simp, fun i hi hne => ?_, fun _ t ht => ⟨t, ht, fun h => h⟩⟩
  exact List.getElem?_set_ne (Ne.symm hne)

end Writing

theorem Within.aside {α : Type} {x : Writing α} (h : Within Writing.Still x) :
    Within Writing.Aside x :=
  h.mono fun _ _ h => h.toAside

namespace Writer

open Writing

theorem still_rotate : Within Still rotate := by
  refine still_writer.bind fun w => (still_onWorld (w.buffer.quiet_flush _)).bind fun _ =>
    (still_onWorld (w.buffer.quiet_sealed _)).bind fun chunk =>
    (still_onWorld (Buffer.quiet_create _ _)).bind fun next =>
    (still_onWorld (Store.quiet_update _ _)).bind fun _ => (still_setBuffer next).bind fun _ =>
    still_publish.bind fun _ => still_onWorld (Op.quiet_discard _)

theorem aside_put (operation : String) (data : Bytes) : Within Aside (put operation data) :=
  still_writer.aside.bind fun _ => (aside_onWorld (Buffer.steady_append _ _ _ _)).bind fun _ =>
    (still_setBuffer _).aside

theorem aside_writeRecord (data : Bytes) : Within Aside (writeRecord data) := by
  refine still_writer.aside.bind fun w => (aside_put _ _).bind fun _ => ?_
  refine Within.bind ((aside_put _ _).catch_stop fun stop => ?_) fun _ => ?_
  · cases stop with
    | error e =>
      exact still_writer.aside.bind fun _ => (still_onWorld (Buffer.quiet_rewind _ _)).aside.bind
        fun _ => (still_setBuffer _).aside.bind fun _ => within_throw _
    | crash => exact within_throw _
  · refine Within.bind (within_modify fun (writer, w) => ?_) fun _ =>
      still_publish.aside.bind fun _ => still_writer.aside.bind fun _ => within_pure _
    exact aside_of_steady rfl (.refl w)

theorem aside_append (data : Bytes) : Within Aside (append data) := by
  refine still_writer.aside.bind fun w => ?_
  split
  · exact aside_writeRecord data
  · exact still_rotate.aside.bind fun _ => aside_writeRecord data

theorem still_sealLive : Within Still sealLive := by
  refine still_writer.bind fun w => ?_
  split
  · exact within_pure _
  · exact still_rotate

theorem still_checkpoint : Within Still checkpoint :=
  still_writer.bind fun _ => (still_onWorld (Buffer.quiet_flush _ _)).bind fun _ =>
    (still_onWorld (Store.quiet_update _ _)).bind fun _ => within_pure _

end Writer

def Action.still : Action → Bool
  | .append _ _ => false
  | _ => true

theorem Action.still_perform {a : Action} (ha : a.still = true) : Within Writing.Still a.perform := by
  cases a with
  | append data h => cases ha
  | sealLive => exact Writer.still_sealLive.bind fun _ => within_pure _
  | checkpoint => exact Writer.still_checkpoint.map some
  | observeKey keySize h =>
    refine Within.bind (within_modify fun (writer, w) => ?_) fun _ => within_pure _
    exact Writing.still_of_quiet rfl (.refl w)
  | putCheckpoint name pos =>
    exact Writing.still_writer.bind fun _ =>
      (Writing.still_onWorld (Store.quiet_update _ _)).bind fun _ => within_pure _

theorem Action.aside_perform (a : Action) : Within Writing.Aside a.perform := by
  cases ha : a.still with
  | true => exact (a.still_perform ha).aside
  | false =>
    cases a with
    | append data h => exact (Writer.aside_append data).map some
    | _ => cases ha

theorem Step.aside_take (step : Step) (s : Writer × World) : Writing.Aside s (step.take s).2 := by
  obtain ⟨writer, w⟩ := s
  have hbegun : Writing.Aside (writer, w) (writer, w.under writer.store step.circumstances) :=
    Writing.aside_of_steady rfl (World.quiet_under _ _).toSteady
  have hdone : Writing.Aside (writer, w.under writer.store step.circumstances)
      (step.action.perform.attempt (writer, w.under writer.store step.circumstances)).2 := by
    exact Ends.attempt (P := fun _ s' => Writing.Aside _ s')
      (step.action.aside_perform (writer, w.under writer.store step.circumstances))
  exact (hbegun.trans hdone).trans (Writing.aside_of_steady rfl (World.quiet_under _ _).toSteady)

end RecordLog
