import Mathlib
import RecordLog.Proofs.Scans

/-!
# Worlds that look the same to a reader

A reader looks at the watermark of its writer, at the tables of its index and at the files that the
names in its folder lead to, and the calls it makes can be struck by faults. In two worlds that have
all of this in common it reads the same, whatever else is different.
-/

namespace RecordLog

variable {α β : Type}

/-- Two results that agree: both operations ended well, with the same value and in worlds of which
`Q` holds, or stopped for the same reason in worlds of which `S` does. -/
inductive Op.Agree (Q : α → World → World → Prop) (S : World → World → Prop) :
    EStateM.Result Stop World α → EStateM.Result Stop World α → Prop where
  | ok {a : α} {v v' : World} (h : Q a v v') : Agree Q S (.ok a v) (.ok a v')
  | error {stop : Stop} {v v' : World} (h : S v v') : Agree Q S (.error stop v) (.error stop v')

namespace Op.Agree

variable {Q : α → World → World → Prop} {R : β → World → World → Prop} {S : World → World → Prop}
  {w w' : World}

theorem bind {x : Op α} {f : α → Op β} (h : Agree Q S (x w) (x w'))
    (hf : ∀ a v v', Q a v v' → Agree R S (f a v) (f a v')) :
    Agree R S ((x >>= f) w) ((x >>= f) w') := by
  simp only [Bind.bind, EStateM.bind]
  cases hx : x w <;> cases hx' : x w' <;> rw [hx, hx'] at h <;> cases h
  · exact hf _ _ _ (by assumption)
  · exact .error (by assumption)

theorem catch_stop {x : Op α} {f : Stop → Op α} (h : Agree Q S (x w) (x w'))
    (hf : ∀ stop v v', S v v' → Agree Q S (f stop v) (f stop v')) :
    Agree Q S (tryCatch x f w) (tryCatch x f w') := by
  simp only [tryCatch, tryCatchThe, MonadExceptOf.tryCatch, EStateM.tryCatch]
  cases hx : x w <;> cases hx' : x w' <;> rw [hx, hx'] at h <;> cases h
  · exact .ok (by assumption)
  · exact hf _ _ _ (by assumption)

theorem ofExcept (x : Except Error α) (hQ : ∀ a, Q a w w') (hS : S w w') :
    Agree Q S (Op.ofExcept x w) (Op.ofExcept x w') := by
  cases x with
  | ok a => exact .ok (hQ a)
  | error e => exact .error hS

theorem difference (a b : Nat) {Q : Nat → World → World → Prop} (hQ : ∀ n, Q n w w')
    (hS : S w w') : Agree Q S (Op.difference a b w) (Op.difference a b w') := by
  unfold Op.difference
  split
  · exact .ok (hQ _)
  · exact .error hS

theorem frontOf (bs : Bytes) (count : Nat) {Q : Bytes → World → World → Prop}
    (hQ : ∀ front, Q front w w') (hS : S w w') :
    Agree Q S (Op.frontOf bs count w) (Op.frontOf bs count w') := by
  unfold Op.frontOf
  split
  · exact .ok (hQ _)
  · exact .error hS

end Op.Agree

open Op

namespace Reader

/-- Two worlds look the same to a reader. -/
structure SameView (r : Reader) (w w' : World) : Prop where
  mark : w.marks.getD r.mark {} = w'.marks.getD r.mark {}
  store : w.stores[r.store]? = w'.stores[r.store]?
  tables : ∀ s, w.stores[r.store]? = some s → s.tables w.disk = s.tables w'.disk
  entry : ∀ name, w.disk.find (r.config.locate name) = w'.disk.find (r.config.locate name)
  content : ∀ name id, w.disk.find (r.config.locate name) = .ok (.file id) →
    w.disk.content id = w'.disk.content id
  faults : w.faults = w'.faults

/-- An operation reads the same in two worlds, and they still look the same afterwards. -/
abbrev ReadsSame (r : Reader) (x : Op α) (w w' : World) : Prop :=
  Agree (fun _ => r.SameView) r.SameView (x w) (x w')

variable {r : Reader} {w w' : World}

namespace SameView

theorem refl (r : Reader) (w : World) : r.SameView w w :=
  ⟨rfl, rfl, fun _ _ => rfl, fun _ => rfl, fun _ _ _ => rfl, rfl⟩

theorem strike (h : r.SameView w w') (hook : Hook) : r.ReadsSame (Op.strike hook) w w' := by
  obtain ⟨hmark, hstore, htables, hentry, hcontent, hfaults⟩ := h
  simp only [ReadsSame, Op.strike, ← hfaults]
  split
  · exact .ok ⟨hmark, hstore, htables, hentry, hcontent, hfaults⟩
  split
  · exact .ok ⟨hmark, hstore, htables, hentry, hcontent, hfaults⟩
  · exact .ok ⟨hmark, hstore, htables, hentry, hcontent, rfl⟩

theorem pass (h : r.SameView w w') (hook : Hook) : r.ReadsSame (Op.pass hook) w w' := by
  refine (h.strike hook).bind fun struck v v' hv => ?_
  cases struck with
  | none => exact .ok hv
  | some f => exact .error hv

theorem call (h : r.SameView w w') (event : Event) (hook : Hook) (x : Except Error α) :
    r.ReadsSame (do Op.trace event; Op.pass hook; Op.ofExcept x) w w' := by
  have htrace : r.ReadsSame (Op.trace event) w w' :=
    .ok ⟨h.mark, h.store, h.tables, h.entry, h.content, h.faults⟩
  refine htrace.bind fun _ v v' hv => (hv.pass hook).bind fun _ u u' hu => ?_
  exact .ofExcept x (fun _ => hu) hu

theorem readAll (h : r.SameView w w') (name : String) :
    w.disk.readAll (r.config.locate name) = w'.disk.readAll (r.config.locate name) := by
  simp only [Disk.readAll, ← h.entry name]
  cases hf : w.disk.find (r.config.locate name) with
  | error cause => rfl
  | ok e =>
    cases e with
    | folder => rfl
    | file id => exact congrArg (fun c => Except.ok c.all) (h.content name id hf)

theorem lookAtDisk (h : r.SameView w w') (operation : String) {f : Disk → Except IoCause α}
    (hf : f w.disk = f w'.disk) :
    Agree (fun a v v' => f v.disk = .ok a ∧ r.SameView v v') r.SameView
      (Op.lookAtDisk operation f w) (Op.lookAtDisk operation f w') := by
  simp only [Op.lookAtDisk, Op.onDisk, ← hf]
  cases hx : f w.disk with
  | error cause => exact .error h
  | ok a => exact .ok ⟨hx, h⟩

theorem watermark (h : r.SameView w w') : r.ReadsSame r.watermark w w' := by
  have hmark := h.mark
  change Agree _ _ (.ok (w.marks.getD r.mark {}) w) (.ok (w'.marks.getD r.mark {}) w')
  rw [← hmark]
  exact .ok h

theorem lookup (h : r.SameView w w') :
    Agree (fun s v v' => v.stores[r.store]? = some s ∧ r.SameView v v') r.SameView
      (Store.lookup r.store w) (Store.lookup r.store w') := by
  unfold Store.lookup
  rw [← h.store]
  cases hs : w.stores[r.store]? with
  | none => exact .error h
  | some s => exact .ok ⟨hs, h⟩

theorem begin (h : r.SameView w w') : r.ReadsSame (Store.begin r.store .read) w w' := by
  have hwork {v v' : World} (hv : r.SameView v v') : r.ReadsSame (do
      let s ← Store.lookup r.store
      Op.ofExcept s.check
      pure (s.tables (← get).disk)) v v' := by
    refine hv.lookup.bind fun s u u' hfound => ?_
    obtain ⟨hs, hu⟩ := hfound
    cases hcheck : s.check with
    | error e => exact .error hu
    | ok _ =>
      have htables := hu.tables s hs
      change Agree _ _ (.ok (s.tables u.disk) u) (.ok (s.tables u'.disk) u')
      rw [← htables]
      exact .ok hu
  refine h.lookup.bind fun s v v' hfound => ?_
  have hv := hfound.2
  by_cases hwatched : s.watched
  · simp only [hwatched, if_true]
    exact (hv.pass .read).bind fun _ u u' hu => hwork hu
  · simp only [hwatched]
    exact hwork hv

theorem abandon (h : r.SameView w w') (e : Error) :
    r.ReadsSame (Store.abandon r.store (.error e) : Op α) w w' :=
  h.lookup.bind fun _ _ _ hfound => .error hfound.2

theorem chunks (h : r.SameView w w') : r.ReadsSame r.chunks w w' := by
  have hbegin := h.begin
  simp only [ReadsSame, Reader.chunks, Store.read, Store.transact]
  cases hx : Store.begin r.store .read w <;> cases hx' : Store.begin r.store .read w' <;>
    rw [ReadsSame, hx, hx'] at hbegin <;> cases hbegin
  case ok.ok.ok t v v' hv =>
    dsimp only
    cases hrun : t.answer .chunks with
    | error e =>
      have : t.run (Program.request .chunks) = ([], .error (.error e)) := by
        simp only [Program.request, Tables.run, hrun]
      rw [this]
      exact hv.abandon e
    | ok answer =>
      have : t.run (Program.request .chunks) = ([⟨.chunks, answer.1⟩], .ok answer) := by
        simp only [Program.request, Tables.run, hrun]
      rw [this]
      exact .ok hv
  case error.error.error hv => exact .error hv

theorem openChunk (h : r.SameView w w') (c : Chunk) (stop : Nat) :
    r.ReadsSame (r.openChunk c stop) w w' := by
  have hload : r.ReadsSame (c.load r.config) w w' := by
    refine (h.lookAtDisk _ (h.readAll c.file)).bind fun bytes v v' hread => ?_
    refine (hread.2.call _ _ _).bind fun compressed u u' hu => ?_
    refine (hu.call _ _ _).bind fun content t t' ht => ?_
    split
    · exact .ok ht
    · exact .error ht
  refine hload.bind fun content v v' hv => ?_
  refine (Agree.difference _ _ (fun _ => hv) hv).bind fun limit u u' hu => ?_
  exact (Agree.frontOf _ _ (fun _ => hu) hu).bind fun _ _ _ ht => .ok ht

theorem openLive (h : r.SameView w w') (m : Watermark) (start : Nat) :
    r.ReadsSame (r.openLive m start) w w' := by
  refine (h.lookAtDisk _ (h.entry _)).bind fun entry v v' hv => ?_
  refine (Agree.difference _ _ (Q := fun _ u u' => u.disk.find _ = .ok entry ∧ r.SameView u u')
    (fun _ => hv) hv.2).bind fun count u u' hfound => ?_
  obtain ⟨hentry, hu⟩ := hfound
  refine Agree.bind (Q := fun _ => r.SameView) ?_ fun bytes t t' ht =>
    (ht.call _ _ _).bind fun _ _ _ hs => .ok hs
  cases entry with
  | folder =>
    by_cases hcount : count = 0
    · simp only [hcount, if_true]
      exact .ok hu
    · simp only [hcount, if_false]
      exact .error hu
  | file id =>
    have hcontent := hu.content _ id hentry
    change Agree _ _ (.ok ((u.disk.content id).range _ count) u)
      (.ok ((u'.disk.content id).range _ count) u')
    rw [← hcontent]
    exact .ok hu

theorem openSource (h : r.SameView w w') (start stop : Nat) (source : Source) :
    r.ReadsSame (r.openSource start stop source) w w' := by
  cases source with
  | chunk c => exact h.openChunk c stop
  | live m =>
    refine (h.openLive m start).catch_stop fun e v v' hv => ?_
    cases e with
    | crash => exact .error hv
    | error e =>
      dsimp only
      split
      · refine hv.chunks.bind fun cs u u' hu => ?_
        cases cs.find? (·.start = m.start) with
        | none => exact .error hu
        | some c => exact hu.openChunk c stop
      · exact .error hv

end SameView

end Reader

namespace Scan

variable {s : Scan} {w w' : World}

/-- What a scan comes to in two worlds: the same, in worlds that still look the same. -/
inductive Abreast (r : Reader) : Item × Scan × World → Item × Scan × World → Prop where
  | mk {item : Item} {s : Scan} {v v' : World} (hr : s.reader = r) (h : r.SameView v v') :
      Abreast r (item, s, v) (item, s, v')

theorem advance_abreast (h : s.reader.SameView w w') (sources : List Source) :
    Abreast s.reader (s.advance sources w) (s.advance sources w') := by
  induction sources generalizing s w w' with
  | nil => exact .mk rfl h
  | cons source rest ih =>
    have hopen := h.openSource s.plan.start s.plan.stop source
    rw [advance, advance]
    cases hx : s.reader.openSource s.plan.start s.plan.stop source w <;>
      cases hx' : s.reader.openSource s.plan.start s.plan.stop source w' <;>
      rw [Reader.ReadsSame, hx, hx'] at hopen <;> cases hopen
    case ok.ok.ok cur v v' hv =>
      dsimp only
      split
      · exact .mk rfl hv
      · exact .mk rfl hv
      · exact ih (s := { s with plan := { s.plan with sources := rest }, cursor := none }) hv
    case error.error.error stop v v' hv =>
      cases stop <;> exact .mk rfl hv

theorem next_abreast (h : s.reader.SameView w w') :
    Abreast s.reader (s.next w) (s.next w') := by
  unfold next
  split
  · exact .mk rfl h
  split
  · exact advance_abreast h _
  split
  · exact .mk rfl h
  · exact .mk rfl h
  · exact advance_abreast h _

theorem collect_congr (h : s.reader.SameView w w') :
    (s.collect w).1 = (s.collect w').1 ∧ (s.collect w).2.1 = (s.collect w').2.1 := by
  fun_induction collect s w generalizing w' with
  | case1 s w r s' v hn _ records rest heq ih =>
    have hnext := next_abreast h
    rw [hn] at hnext
    generalize hn' : s.next w' = came at hnext
    cases hnext with
    | mk hr hv =>
      obtain ⟨hrecords, hitem⟩ := ih (hr ▸ hv)
      rw [heq] at hrecords hitem
      rw [collect_eq s w', hn']
      exact ⟨congrArg (r :: ·) hrecords, hitem⟩
  | case2 s w hn =>
    have hnext := next_abreast h
    generalize hn₁ : s.next w = came at hnext hn
    generalize hn₂ : s.next w' = came' at hnext
    cases hnext with
    | @mk item s' v v' hr hv =>
      rw [collect_eq s w', hn₂]
      cases item with
      | record r => exact (hn r s' v rfl).elim
      | _ => exact ⟨rfl, rfl⟩

end Scan

end RecordLog
