import Mathlib
import RecordLog.Proofs.CheckedCursors
import RecordLog.Proofs.Damage

/-!
# Plans and segments with checked arithmetic

Here plans are made and segments opened with positions and lengths of 64 bits: a sum that needs
more, a difference below zero and a range beyond its bytes are crashes. If the segments that the
index lists and the live one end at positions of 64 bits, then nothing crashes, whatever else is in
the index and in the files, and plans and cursors are those of the plain operations.
-/

namespace RecordLog

open World

variable {α β : Type}

def Op.Crashes (op : Op α) (w : World) : Prop := ∃ w', op w = .error .crash w'

theorem Op.not_crashes_of_ok {op : Op α} {a : α} {w w' : World} (h : op w = .ok a w') :
    ¬ op.Crashes w := by
  rintro ⟨w'', hcrash⟩
  rw [h] at hcrash
  cases hcrash

theorem Op.not_crashes_of_error {op : Op α} {e : Error} {w w' : World}
    (h : op w = .error (.error e) w') : ¬ op.Crashes w := by
  rintro ⟨w'', hcrash⟩
  rw [h] at hcrash
  cases hcrash

/-- What a reader takes for granted: calls return, and segments end at positions of 64 bits. -/
structure Reader.Presumes (r : Reader) (w : World) : Prop where
  returns : w.Returns
  watermark : (w.marks.getD r.mark {}).stop < 2 ^ 64
  chunks : ∀ s, w.stores[r.store]? = some s → ∀ cs t,
    (s.tables w.disk).answer .chunks = .ok (cs, t) → ∀ c ∈ cs, c.stop < 2 ^ 64

/-- A segment that starts no later than reading stops, and that ends at a position of 64 bits. -/
def Source.Fits (stop : Nat) : Source → Prop
  | .chunk c => c.start ≤ stop ∧ c.stop < 2 ^ 64
  | .live m => m.start ≤ stop ∧ m.stop < 2 ^ 64

namespace Checked

def wanted (start stop : Nat) : List Chunk → Op (List Chunk)
  | [] => pure []
  | c :: cs => do
    let last ← Op.sum c.start c.size
    let rest ← wanted start stop cs
    pure (if decide (start < last) && decide (c.start < stop) then c :: rest else rest)

def plan (r : Reader) (start : Nat) : Op Plan := do
  let live ← r.watermark
  let stop ← Op.sum live.start live.pos
  let wanted ← wanted start stop (← r.chunks)
  let sealedSince := wanted.getLast?.any (·.start = live.start)
  let tail :=
    if !sealedSince && decide (start < stop) && decide (0 < live.pos) then [Source.live live]
    else []
  pure ⟨start, stop, wanted.map .chunk ++ tail⟩

def openChunk (r : Reader) (c : Chunk) (stop : Nat) : Op Cursor := do
  let content ← c.load r.config
  let last ← Op.sum c.start c.size
  let limit ← Op.difference (min stop last) c.start
  let front ← Op.frontOf content limit
  pure {
    name := c.file
    segment := c.start
    base := c.start
    data := front
    lenient := limit < c.size }

/-- Opens the live segment. To make room for its bytes is not checked, as it cannot fail for their
number: a watermark is published only for a file that is as long, and a file has less than
`2 ^ 63` bytes, as an allocation may have. -/
def openLive (r : Reader) (m : Watermark) (start : Nat) : Op Cursor := do
  let name := bufferFileName m.start
  let offset := min (start - m.start) m.pos
  let entry ← Op.lookAtDisk "open live buffer" (·.find (r.config.locate name))
  let count ← Op.difference m.pos offset
  let bytes ← (match entry with
    | .folder => if count = 0 then pure [] else Op.fail (.io "read live buffer" .isDirectory)
    | .file id => do return ((← get).disk.content id).range offset count)
  let plain ← Op.decodeAt r.config.cipher m.id offset bytes
  let base ← Op.sum m.start offset
  pure {
    name
    segment := m.start
    base
    data := plain
    lenient := true }

def openSource (r : Reader) (start stop : Nat) : Source → Op Cursor
  | .chunk c => openChunk r c stop
  | .live m => do
    try
      openLive r m start
    catch
      | .error e =>
        if e.isMissing then
          match (← r.chunks).find? (·.start = m.start) with
          | some c => openChunk r c stop
          | none => Op.fail e
        else Op.fail e
      | .crash => throw .crash

end Checked

namespace Reader

variable {r : Reader} {w w' : World}

theorem ends_chunks_any (r : Reader) (w : World) :
    Ends r.chunks w
      (fun cs w' => Idle w w' ∧ ∃ s t, w.stores[r.store]? = some s ∧
        (s.tables w.disk).answer .chunks = .ok (cs, t))
      fun stop w' => Idle w w' ∧ Failed w stop := by
  cases hs : w.stores[r.store]? with
  | none =>
    have hbegin : Store.begin r.store .read w = .error (.error .closed) w := by
      simp only [Store.begin, bind, EStateM.bind, Store.lookup, hs]
    refine ends_of_eq_error (e := .error .closed) (t := w) ?_ ⟨.refl w, .error _ _⟩
    simp only [chunks, Store.read, Store.transact, hbegin]
  | some s =>
    have hbegin := Store.ends_begin_eq hs .read
    cases hx : Store.begin r.store .read w with
    | error stop w₁ =>
      obtain ⟨hi, hstop⟩ := hbegin.error hx
      refine ends_of_eq_error (e := stop) (t := w₁) ?_ ⟨hi, ?_⟩
      · simp only [chunks, Store.read, Store.transact, hx]
      · rcases hstop with ⟨e, -, rfl⟩ | ⟨hfailed, -⟩
        · exact .error _ _
        · exact hfailed
    | ok t w₁ =>
      obtain ⟨hi, -, rfl⟩ := hbegin.ok hx
      cases ha : (s.tables w.disk).answer .chunks with
      | error e =>
        have hs₁ : w₁.stores[r.store]? = some s := hi.stores ▸ hs
        refine ends_of_eq_error (e := .error e) (t := w₁) ?_ ⟨hi, .error _ _⟩
        simp only [chunks, Store.read, Store.transact, hx, Program.request, Tables.run, ha,
          Store.abandon, bind, EStateM.bind, Store.lookup, hs₁]
        rfl
      | ok answer =>
        obtain ⟨cs, t⟩ := answer
        refine ends_of_eq_ok (a := cs) (t := w₁) ?_ ⟨hi, s, t, rfl, ha⟩
        simp only [chunks, Store.read, Store.transact, hx, Program.request, Tables.run, ha]
        rfl

namespace Presumes

theorem idle (h : r.Presumes w) (hi : Idle w w') : r.Presumes w' where
  returns := hi.returns h.returns
  watermark := hi.marks ▸ h.watermark
  chunks := by
    rw [hi.stores, hi.disk]
    exact h.chunks

theorem ends_chunks (h : r.Presumes w) :
    Ends r.chunks w (fun cs w' => Idle w w' ∧ ∀ c ∈ cs, c.stop < 2 ^ 64)
      fun stop w' => Idle w w' ∧ ∃ e, stop = .error e := by
  refine (ends_chunks_any r w).mono ?_ fun _ _ hE => ⟨hE.1, hE.2 h.returns⟩
  rintro cs w' ⟨hi, s, t, hs, ha⟩
  exact ⟨hi, h.chunks s hs cs t ha⟩

end Presumes

end Reader

namespace Checked

variable {r : Reader} {w : World} {start stop : Nat}

theorem wanted_eq {cs : List Chunk} (h : ∀ c ∈ cs, c.stop < 2 ^ 64) (w : World) :
    wanted start stop cs w = .ok (cs.filter (Plan.wants start stop)) w := by
  induction cs with
  | nil => rfl
  | cons c cs ih =>
    have hrest := ih fun c' hc' => h c' (List.mem_cons_of_mem _ hc')
    have hlast := Op.sum_eq (h c List.mem_cons_self) w
    rw [wanted, Op.bind_of_ok hlast, Op.bind_of_ok hrest, List.filter_cons]
    rfl

theorem fits_of_mem_build {live : Watermark} {cs : List Chunk} (hlive : live.stop < 2 ^ 64)
    (h : ∀ c ∈ cs, c.stop < 2 ^ 64) {source : Source}
    (hsource : source ∈ (Plan.build live cs start).sources) : source.Fits live.stop := by
  rcases List.mem_append.1 hsource with hsource | hsource
  · obtain ⟨c, hc, rfl⟩ := List.mem_map.1 hsource
    obtain ⟨hc, hwants⟩ := List.mem_filter.1 hc
    simp only [Bool.and_eq_true, decide_eq_true_eq] at hwants
    exact ⟨Nat.le_of_lt hwants.2, h c hc⟩
  · split at hsource
    · rw [List.mem_singleton.1 hsource]
      exact ⟨Nat.le_add_right _ _, hlive⟩
    · cases hsource

/-- A plan is made as the plain one is or fails with the same error, and its segments fit. -/
theorem plan_eq (h : r.Presumes w) (start : Nat) :
    (∃ plan w', Checked.plan r start w = .ok plan w' ∧ r.plan start w = .ok plan w' ∧
      ∀ source ∈ plan.sources, source.Fits plan.stop) ∨
    ∃ e w', Checked.plan r start w = .error (.error e) w' ∧
      r.plan start w = .error (.error e) w' := by
  let live := w.marks.getD r.mark {}
  have hmark : r.watermark w = .ok live w := rfl
  have hchecked : plan r start w = (r.chunks >>= fun cs => _) w :=
    (Op.bind_of_ok hmark).trans (Op.bind_of_ok (Op.sum_eq h.watermark w))
  have hplain : r.plan start w = (r.chunks >>= fun cs => pure (.build live cs start)) w :=
    Op.bind_of_ok hmark
  cases hx : r.chunks w with
  | error stop w' =>
    obtain ⟨-, e, rfl⟩ := h.ends_chunks.error hx
    exact .inr ⟨e, w', hchecked.trans (Op.bind_of_error hx), hplain.trans (Op.bind_of_error hx)⟩
  | ok cs w' =>
    obtain ⟨-, hcs⟩ := h.ends_chunks.ok hx
    have hwanted : wanted start live.stop cs w' = .ok _ w' := wanted_eq hcs w'
    exact .inl ⟨.build live cs start, w',
      hchecked.trans ((Op.bind_of_ok hx).trans (Op.bind_of_ok hwanted)),
      hplain.trans (Op.bind_of_ok hx), fun source => fits_of_mem_build h.watermark hcs⟩

/-- An operation opens what a plain one does or fails with the same error, and does not crash. -/
inductive Opens (x : Op Cursor) (y : Op RecordLog.Cursor) (w : World) : Prop where
  | cursor {c : Cursor} {w' : World} (hx : x w = .ok c w') (hy : y w = .ok c.plain w')
      (hc : c.Fits) (hi : Idle w w')
  | error {e : Error} {w' : World} (hx : x w = .error (.error e) w')
      (hy : y w = .error (.error e) w') (hi : Idle w w')

namespace Opens

variable {x : Op Cursor} {y : Op RecordLog.Cursor}

theorem fail (e : Error) (w : World) : Opens (Op.fail e) (Op.fail e) w := .error rfl rfl (.refl w)

theorem after {x' : Op Cursor} {y' : Op RecordLog.Cursor} {w' : World} (h : Opens x' y' w')
    (hx : x w = x' w') (hy : y w = y' w') (hi : Idle w w') : Opens x y w := by
  cases h with
  | cursor hx' hy' hc hi' => exact .cursor (hx.trans hx') (hy.trans hy') hc (hi.trans hi')
  | error hx' hy' hi' => exact .error (hx.trans hx') (hy.trans hy') (hi.trans hi')

theorem bind {z : Op α} {f : α → Op Cursor} {g : α → Op RecordLog.Cursor} {P : α → Prop}
    (hz : Ends z w (fun a w' => Idle w w' ∧ P a) fun stop w' => Idle w w' ∧ ∃ e, stop = .error e)
    (h : ∀ a w', Idle w w' → P a → Opens (f a) (g a) w') : Opens (z >>= f) (z >>= g) w := by
  cases hx : z w with
  | error stop w' =>
    obtain ⟨hi, e, rfl⟩ := hz.error hx
    exact .error (Op.bind_of_error hx) (Op.bind_of_error hx) hi
  | ok a w' =>
    obtain ⟨hi, ha⟩ := hz.ok hx
    exact (h a w' hi ha).after (Op.bind_of_ok hx) (Op.bind_of_ok hx) hi

theorem check {z : Op α} {f : α → Op Cursor} {a : α} (hz : z w = .ok a w) (h : Opens (f a) y w) :
    Opens (z >>= f) y w :=
  h.after (Op.bind_of_ok hz) rfl (.refl w)

theorem check_both {z : Op α} {f : α → Op Cursor} {g : α → Op RecordLog.Cursor} {a : α}
    (hz : z w = .ok a w) (h : Opens (f a) (g a) w) : Opens (z >>= f) (z >>= g) w :=
  h.after (Op.bind_of_ok hz) (Op.bind_of_ok hz) (.refl w)

theorem catch_error {f : Stop → Op Cursor} {g : Stop → Op RecordLog.Cursor} (h : Opens x y w)
    (hf : ∀ e w', Idle w w' → Opens (f (.error e)) (g (.error e)) w') :
    Opens (tryCatch x f) (tryCatch y g) w := by
  cases h with
  | cursor hx hy hc hi =>
    refine .cursor ?_ ?_ hc hi
    · simp only [tryCatch, tryCatchThe, MonadExceptOf.tryCatch, EStateM.tryCatch, hx]
    · simp only [tryCatch, tryCatchThe, MonadExceptOf.tryCatch, EStateM.tryCatch, hy]
  | @error e w' hx hy hi =>
    refine (hf e w' hi).after ?_ ?_ hi
    · simp only [tryCatch, tryCatchThe, MonadExceptOf.tryCatch, EStateM.tryCatch, hx]
      rfl
    · simp only [tryCatch, tryCatchThe, MonadExceptOf.tryCatch, EStateM.tryCatch, hy]
      rfl

theorem map_plain_eq (h : Opens x y w) : (Cursor.plain <$> x) w = y w := by
  cases h with
  | cursor hx hy _ _ => simp only [Functor.map, EStateM.map, hx, hy]
  | error hx hy _ => simp only [Functor.map, EStateM.map, hx, hy]

theorem not_crashes (h : Opens x y w) : ¬ y.Crashes w := by
  cases h with
  | cursor _ hy _ _ => exact Op.not_crashes_of_ok hy
  | error _ hy _ => exact Op.not_crashes_of_error hy

end Opens

theorem opens_chunk {c : Chunk} (hr : w.Returns) (hf : (Source.chunk c).Fits stop) :
    Opens (openChunk r c stop) (r.openChunk c stop) w := by
  obtain ⟨hle, hstop⟩ := hf
  have hload : Ends (c.load r.config) w (fun content w' => Idle w w' ∧ content.length = c.size)
      fun stop' w' => Idle w w' ∧ ∃ e, stop' = .error e :=
    (c.ends_load_any w).mono (fun _ _ h => ⟨h.1, h.2.1⟩) fun _ _ h => ⟨h.1, h.2 hr⟩
  refine .bind hload fun content w' _ hsize => ?_
  have hend : c.stop = c.start + c.size := rfl
  have hlimit : min stop c.stop - c.start ≤ content.length := by omega
  have hfront : c.start + (content.take (min stop c.stop - c.start)).length < 2 ^ 64 := by
    rw [List.length_take]
    omega
  exact .check (Op.sum_eq hstop w') (.check_both (Op.difference_eq (by omega) w')
    (.check_both (Op.frontOf_eq hlimit w') (.cursor rfl rfl ⟨Nat.zero_le _, hfront⟩ (.refl w'))))

theorem opens_live {m : Watermark} (hr : w.Returns) (hk : r.config.cipher.KeepsLength)
    (hf : (Source.live m).Fits stop) : Opens (openLive r m start) (r.openLive m start) w := by
  have hstop : m.start + m.pos < 2 ^ 64 := hf.2
  have hoffset : min (start - m.start) m.pos ≤ m.pos := Nat.min_le_right _ _
  have hlook (f : Disk → Except IoCause Entry) : Ends (Op.lookAtDisk "open live buffer" f) w
      (fun _ w' => Idle w w' ∧ True) fun stop' w' => Idle w w' ∧ ∃ e, stop' = .error e := by
    refine (Op.ends_lookAtDisk _ f w).mono ?_ ?_
    · rintro _ _ ⟨rfl, -⟩
      exact ⟨.refl _, trivial⟩
    · rintro _ _ ⟨rfl, cause, -, rfl⟩
      exact ⟨.refl _, _, rfl⟩
  refine .bind (hlook _) fun entry w₁ h₁ _ => .check_both (Op.difference_eq hoffset w₁) ?_
  refine .bind (P := fun bytes => bytes.length ≤ m.pos - min (start - m.start) m.pos) ?_
    fun bytes w₂ h₂ hbytes => ?_
  · cases entry with
    | folder =>
      dsimp only
      split
      · exact ends_pure ⟨.refl _, Nat.zero_le _⟩
      · exact ends_throw ⟨.refl _, _, rfl⟩
    | file id => exact ends_of_eq_ok rfl ⟨.refl _, Content.length_range_le _ _ _⟩
  have hr := h₂.returns (h₁.returns hr)
  have hdecode := (Op.ends_decodeAt r.config.cipher m.id (min (start - m.start) m.pos) bytes
    w₂).mono (fun _ _ h => h) fun _ _ h => And.intro h.1 (h.2 hr)
  refine .bind hdecode fun plain w₃ _ hplain => ?_
  have hlength := hk _ _ _ _ hplain
  have hread : m.start + min (start - m.start) m.pos + plain.length < 2 ^ 64 := by omega
  exact .check (Op.sum_eq (by omega) w₃) (.cursor rfl rfl ⟨Nat.zero_le _, hread⟩ (.refl w₃))

theorem opens_source (h : r.Presumes w) (hk : r.config.cipher.KeepsLength) {source : Source}
    (hf : source.Fits stop) :
    Opens (openSource r start stop source) (r.openSource start stop source) w := by
  cases source with
  | chunk c => exact opens_chunk h.returns hf
  | live m =>
    refine (opens_live h.returns hk hf).catch_error fun e w₁ h₁ => ?_
    dsimp only
    split
    · refine Opens.bind (h.idle h₁).ends_chunks fun cs w₂ h₂ hcs => ?_
      cases hfind : cs.find? (·.start = m.start) with
      | none => exact .fail e w₂
      | some c =>
        have hstart : c.start = m.start := by simpa using List.find?_some hfind
        exact opens_chunk (h₂.returns (h₁.returns h.returns))
          ⟨hstart ▸ hf.1, hcs c (List.mem_of_find?_eq_some hfind)⟩
    · exact .fail e w₁

end Checked

end RecordLog
