import Mathlib
import RecordLog.Proofs.SameViews
import RecordLog.Proofs.Schedules

/-!
# A scan in the background yields what a scan does

The producer of a background scan goes through a plan in steps of its own and hands over records in
one way and an error in another. What it has yet to hand over is always what a scan would still yield
from there on, as long as the log looks the same to it while it has segments to open. So whatever the
schedule is, what was received so far is the beginning of what a scan yields, and all of it is received
before the end is.
-/

namespace RecordLog

open Sign

def Item.told : Item → Option Error
  | .error e => some e
  | .crash => some (AsyncScan.reason .crash)
  | .record _ | .done => none

def itemsOf (records : List Record) (last : Item) : List (Except Error Record) :=
  records.map .ok ++ (last.told.map .error).toList

def Scan.items (s : Scan) (w : World) : List (Except Error Record) :=
  itemsOf (s.collect w).1 (s.collect w).2.1

/-- All that a new scan yields. An error with which it does not even start is all of it. -/
def Reader.items (r : Reader) (start : Nat) (w : World) : List (Except Error Record) :=
  itemsOf (r.readFrom start w).1 (r.readFrom start w).2

/-- What was received, but for the end. -/
def Sign.receipts : List Sign → List (Except Error Record) :=
  List.filterMap fun
    | .got (.record r) => some (.ok r)
    | .got (.error e) => some (.error e)
    | _ => none

theorem Sign.receipts_append (es es' : List Sign) :
    receipts (es ++ es') = receipts es ++ receipts es' :=
  List.filterMap_append

def Producer.plan? : Producer → Option Plan
  | .running plan _ | .holding _ plan _ => some plan
  | _ => none

/-- What goes on elsewhere leaves the log as it looks to a reader, as long as a producer has segments
to open. -/
def Reader.Undisturbed (r : Reader) (p : Producer) (w w' : World) : Prop :=
  ∀ plan, p.plan? = some plan → plan.sources ≠ [] → r.SameView w w'

namespace Scan

variable {s : Scan} {w w' : World}

theorem items_eq (s : Scan) (w : World) :
    s.items w = match s.next w with
      | (.record r, s', w') => .ok r :: s'.items w'
      | (item, _, _) => (item.told.map .error).toList := by
  rw [items, collect_eq]
  split
  · rename_i r s' w' hn
    rw [hn]
    rfl
  · rename_i hn
    split
    · rename_i r s' w' hn'
      exact (hn r s' w' hn').elim
    · rename_i hn'
      rw [hn']
      rfl

theorem items_congr_next {s' : Scan} (h : s.next w = s'.next w') : s.items w = s'.items w' := by
  rw [items_eq, items_eq, h]

theorem items_congr (h : s.reader.SameView w w') : s.items w = s.items w' := by
  rw [items, items, (collect_congr h).1, (collect_congr h).2]

section

variable {r : Reader} {plan : Plan} {cur cur' : Cursor}

theorem items_nil (h : plan.sources = []) : Scan.items { reader := r, plan } w = [] := by
  rw [items_eq]
  simp [next, h, advance, Item.told]

theorem items_of_opened (h : plan.sources = []) (cursor : Option Cursor) :
    Scan.items { reader := r, plan, cursor } w = Scan.items { reader := r, plan, cursor } w' := by
  have hrest (v : World) : (Scan.collect { reader := r, plan } v).1 = [] ∧
      (Scan.collect { reader := r, plan } v).2.1 = .done := by
    rw [collect_eq]
    simp [next, h, advance]
  cases cursor with
  | none => rw [items_nil h, items_nil h]
  | some cur =>
    obtain ⟨hrecords, hlast, -⟩ := collect_of_cursor (w := w)
      (s := { reader := r, plan, cursor := some cur }) rfl rfl
    obtain ⟨hrecords', hlast', -⟩ := collect_of_cursor (w := w')
      (s := { reader := r, plan, cursor := some cur }) rfl rfl
    rw [items, items, hrecords, hlast, hrecords', hlast', (hrest w).1, (hrest w).2, (hrest w').1,
      (hrest w').2]

theorem items_of_open {source : Source} {rest : List Source} (h : plan.sources = source :: rest)
    (ho : r.openSource plan.start plan.stop source w = .ok cur w') :
    Scan.items { reader := r, plan } w =
      Scan.items { reader := r, plan := { plan with sources := rest }, cursor := some cur } w' := by
  refine items_congr_next ?_
  simp only [next, h, advance, ho, Bool.false_eq_true, if_false]
  split
  · rfl
  · rfl
  · exact (advance_forget
      { reader := r, plan := { plan with sources := rest }, cursor := some cur } rest w').symm

theorem items_of_open_error {source : Source} {rest : List Source} {stop : Stop}
    (h : plan.sources = source :: rest)
    (ho : r.openSource plan.start plan.stop source w = .error stop w') :
    Scan.items { reader := r, plan } w = [.error (AsyncScan.reason stop)] := by
  rw [items_eq]
  cases stop <;> simp [next, h, advance, ho, Item.told, AsyncScan.reason]

theorem items_of_none (h : cur.next = (none, cur')) :
    Scan.items { reader := r, plan, cursor := some cur } w = Scan.items { reader := r, plan } w := by
  refine items_congr_next ?_
  simp only [next, Cursor.nextFrom_eq, h, Bool.false_eq_true, if_false]
  exact advance_forget _ _ w

theorem items_of_error {e : Error} (h : cur.next = (some (.error e), cur')) :
    Scan.items { reader := r, plan, cursor := some cur } w = [.error e] := by
  rw [items_eq]
  simp [next, Cursor.nextFrom_eq, h, Item.told]

theorem items_of_skipped {x : Record} (h : cur.next = (some (.ok x), cur'))
    (hx : x.start < plan.start) :
    Scan.items { reader := r, plan, cursor := some cur } w =
      Scan.items { reader := r, plan, cursor := some cur' } w := by
  refine items_congr_next ?_
  have heq : cur.nextFrom plan.start = cur'.nextFrom plan.start := by
    rw [Cursor.nextFrom_eq, h]
    exact if_pos hx
  simp only [next, heq, Bool.false_eq_true, if_false]
  split
  · rfl
  · rfl
  · exact (advance_forget { reader := r, plan, cursor := some cur } plan.sources w).trans
      (advance_forget { reader := r, plan, cursor := some cur' } plan.sources w).symm

theorem items_of_record {x : Record} (h : cur.next = (some (.ok x), cur'))
    (hx : ¬ x.start < plan.start) :
    Scan.items { reader := r, plan, cursor := some cur } w =
      .ok x :: Scan.items { reader := r, plan, cursor := some cur' } w := by
  rw [items_eq]
  have heq : cur.nextFrom plan.start = (some (.ok x), cur') := by
    rw [Cursor.nextFrom_eq, h]
    exact if_neg hx
  simp only [next, heq, Bool.false_eq_true, if_false]

end

end Scan

namespace Reader

variable {r : Reader} {start : Nat} {w w' : World}

theorem start_of_plan {plan : Plan} (h : r.plan start w = .ok plan w') : plan.start = start := by
  simp only [Reader.plan, watermark, Bind.bind, EStateM.bind] at h
  split at h
  · cases h
    rfl
  · cases h

theorem items_of_plan {plan : Plan} (h : r.plan start w = .ok plan w') :
    r.items start w = Scan.items { reader := r, plan := { plan with start } } w' := by
  have hscan : r.scan start w = .ok { reader := r, plan } w' := by
    simp only [scan, Bind.bind, EStateM.bind, h]
    rfl
  rw [items, readFrom, hscan, Scan.items, ← start_of_plan h]

theorem items_of_plan_error {stop : Stop} (h : r.plan start w = .error stop w') :
    r.items start w = [.error (AsyncScan.reason stop)] := by
  have hscan : r.scan start w = .error stop w' := by
    simp only [scan, Bind.bind, EStateM.bind, h]
  rw [items, readFrom, hscan]
  cases stop <;> rfl

end Reader

namespace AsyncScan

variable {a : AsyncScan} {c : Bool} {w w' : World}

def scanFrom (a : AsyncScan) (plan : Plan) (cursor : Option Cursor) : Scan :=
  { reader := a.reader, plan := { plan with start := a.start }, cursor }

/-- What the producer has yet to hand over if nobody stops it. -/
def coming (a : AsyncScan) (w : World) : List (Except Error Record) :=
  match a.producer with
  | .planning => a.reader.items a.start w
  | .running plan cursor => (a.scanFrom plan cursor).items w
  | .holding r plan cursor => .ok r :: (a.scanFrom plan (some cursor)).items w
  | .ended e => (e.map .error).toList
  | .exited => (a.error.map .error).toList

/-- What was handed over and not yet received, and what is yet to be handed over. -/
def outstanding (a : AsyncScan) (w : World) : List (Except Error Record) :=
  a.queue.map .ok ++ a.coming w

/-- A step of the producer either keeps all that is outstanding or ends it, which it does only if the
scan was called off or nobody receives any more. -/
inductive Advance (c : Bool) (a : AsyncScan) (w : World) (a' : AsyncScan) (w' : World) : Prop where
  | on (h : a'.outstanding w' = a.outstanding w)
  | cut (hc : c = true ∨ a.receiving = false) (hq : a'.queue = a.queue) (h : a'.coming w' = [])

theorem step_advance (c : Bool) (a : AsyncScan) (w : World) :
    Advance c a w (a.step c w).1 (a.step c w).2 := by
  have on {a' : AsyncScan} {w' : World} (hq : a'.queue = a.queue)
      (hc : a.coming w = a'.coming w') : Advance c a w a' w' :=
    .on (by rw [outstanding, outstanding, hq, hc])
  cases hp : a.producer with
  | exited =>
    rw [a.step_exited hp]
    exact on rfl rfl
  | ended e =>
    rw [a.step_ended hp]
    exact on rfl (by rw [coming, hp]; rfl)
  | planning =>
    have hcoming : a.coming w = a.reader.items a.start w := by rw [coming, hp]
    simp only [step, hp]
    cases hplan : a.reader.plan a.start w with
    | ok plan w' => exact on rfl (hcoming.trans (Reader.items_of_plan hplan))
    | error stop w' => exact on rfl (hcoming.trans (Reader.items_of_plan_error hplan))
  | running plan cursor =>
    have hcoming : a.coming w = (a.scanFrom plan cursor).items w := by rw [coming, hp]
    cases cursor with
    | none =>
      simp only [step, hp]
      cases hs : plan.sources with
      | nil => exact on rfl (hcoming.trans (Scan.items_nil hs))
      | cons source rest =>
        dsimp only
        split
        · rename_i hc
          exact .cut (.inl hc) rfl rfl
        cases ho : a.reader.openSource a.start plan.stop source w with
        | ok cur w' => exact on rfl (hcoming.trans (Scan.items_of_open hs ho))
        | error stop w' => exact on rfl (hcoming.trans (Scan.items_of_open_error hs ho))
    | some cur =>
      simp only [step, hp]
      cases hn : cur.next with
      | mk came cur' =>
        cases came with
        | none => exact on rfl (hcoming.trans (Scan.items_of_none hn))
        | some came =>
          cases came with
          | error e => exact on rfl (hcoming.trans (Scan.items_of_error hn))
          | ok x =>
            dsimp only
            split
            · rename_i hx
              exact on rfl (hcoming.trans (Scan.items_of_skipped hn hx))
            · rename_i hx
              exact on rfl (hcoming.trans (Scan.items_of_record hn hx))
  | holding r plan cursor =>
    simp only [step, hp]
    split
    · rename_i hc
      rw [Bool.or_eq_true, Bool.not_eq_true'] at hc
      exact .cut hc rfl rfl
    split
    · refine .on ?_
      rw [outstanding, outstanding, coming, coming, hp, List.map_append, List.append_assoc]
      rfl
    · exact on rfl rfl

theorem coming_congr (hp : a.producer ≠ .planning)
    (hu : a.reader.Undisturbed a.producer w w') : a.coming w = a.coming w' := by
  have hscan {plan : Plan} (hplan : a.producer.plan? = some plan) (cursor : Option Cursor) :
      (a.scanFrom plan cursor).items w = (a.scanFrom plan cursor).items w' := by
    by_cases hs : plan.sources = []
    · have hs : ({ plan with start := a.start } : Plan).sources = [] := hs
      exact Scan.items_of_opened hs cursor
    · exact Scan.items_congr (hu plan hplan hs)
  unfold coming
  split
  · rename_i h
    exact absurd h hp
  · rename_i plan cursor h
    exact hscan (by rw [h]; rfl) cursor
  · rename_i x plan cursor h
    rw [hscan (by rw [h]; rfl) (some cursor)]
  · rfl
  · rfl

end AsyncScan

variable {h h' h₀ : Handle} {es new : List Sign} {r : Reader} {l : List (Except Error Record)}
  {start : Nat}

namespace Handle

def outstanding (h : Handle) : List (Except Error Record) := h.scan.outstanding h.world

/-- What was received and what is outstanding is the beginning of a list, and all of it unless the
scan was called off or the receiver stopped. -/
structure Delivers (h : Handle) (es : List Sign) (l : List (Except Error Record)) : Prop where
  starts : receipts es ++ h.outstanding <+: l
  complete : h.cancelled = false → h.scan.receiving = true → receipts es ++ h.outstanding = l

theorem outstanding_receive {c : Bool} {x : Received} {a : AsyncScan} (hs : h.Sound)
    (hr : h.scan.Reception c x a) (phase : Phase) :
    h.outstanding = receipts [.got x] ++ { h with scan := a, phase }.outstanding := by
  cases hr with
  | record _ _ _ hq =>
    rw [outstanding, AsyncScan.outstanding, hq]
    rfl
  | failed hd hp he =>
    have hq := (hs.drained hd).1
    have hexited := hs.exited hd hp
    simp [outstanding, AsyncScan.outstanding, AsyncScan.coming, hq, hexited, he, receipts]
  | _ => rfl

theorem receipts_produced (h : Handle) : receipts h.produced = [] :=
  List.filterMap_eq_nil_iff.2 fun e he => by
    have := ofProducer_of_mem_produced he
    cases e <;> first | rfl | cases this

namespace Delivers

theorem produce (hd : h.Delivers es l) : h.produce.Delivers (es ++ h.produced) l := by
  obtain ⟨-, -, hcancelled, hreceiving⟩ := h.produce_receiver
  have hreceipts : receipts (es ++ h.produced) = receipts es := by
    rw [receipts_append, receipts_produced, List.append_nil]
  have hsame : h.produce.cancelled = h.cancelled := by
    rw [Handle.cancelled, hcancelled]
    rfl
  cases AsyncScan.step_advance h.cancelled h.scan h.world with
  | on hout =>
    have hout : h.produce.outstanding = h.outstanding := hout
    exact ⟨by rw [hreceipts, hout]; exact hd.starts,
      by rw [hreceipts, hout, hsame, hreceiving]; exact hd.complete⟩
  | cut hstop hq hcoming =>
    have hout : h.produce.outstanding = h.scan.queue.map .ok := by
      change (h.scan.step h.cancelled h.world).1.queue.map .ok ++
        (h.scan.step h.cancelled h.world).1.coming (h.scan.step h.cancelled h.world).2 = _
      rw [hq, hcoming, List.append_nil]
    have hless : h.produce.outstanding <+: h.outstanding := hout ▸ List.prefix_append _ _
    refine ⟨?_, fun hc hr => ?_⟩
    · rw [hreceipts]
      exact ((List.prefix_append_right_inj _).2 hless).trans hd.starts
    · rw [hsame] at hc
      rw [hreceiving] at hr
      simp [hc, hr] at hstop

theorem receive (hd : h.Delivers es l) (hout : h.outstanding = receipts new ++ h'.outstanding)
    (hc : h'.cancelled = false → h.cancelled = false)
    (hr : h'.scan.receiving = true → h.scan.receiving = true) : h'.Delivers (es ++ new) l := by
  have hsame : receipts (es ++ new) ++ h'.outstanding = receipts es ++ h.outstanding := by
    rw [receipts_append, List.append_assoc, hout]
  exact ⟨hsame ▸ hd.starts, fun hc' hr' => hsame ▸ hd.complete (hc hc') (hr hr')⟩

end Delivers

end Handle

theorem Move.delivers (hm : Move r.Undisturbed h new h') (hs : h.Sound) (hr : h.scan.reader = r)
    (hp : h.scan.producer ≠ .planning) (hd : h.Delivers es l) : h'.Delivers (es ++ new) l := by
  have hcancelled (hc : h'.cancelled = false) : h.cancelled = false := by
    rw [← Bool.not_eq_true] at hc ⊢
    exact fun h => hc (hm.cancelled_iff.2 (.inl h))
  cases hm with
  | produce => exact hd.produce
  | @elsewhere w hw =>
    have hcoming := AsyncScan.coming_congr hp (hr.symm ▸ hw)
    have hout : h.outstanding = { h with world := w }.outstanding := by
      rw [Handle.outstanding, AsyncScan.outstanding, hcoming]
      rfl
    exact hd.receive hout hcancelled id
  | wait _ hx =>
    have hout := Handle.outstanding_receive hs h.reception h.phase
    rw [hx] at hout
    exact hd.receive hout hcancelled h.reception.receiving
  | get =>
    exact hd.receive (Handle.outstanding_receive hs h.reception .free) hcancelled
      h.reception.receiving
  | finished _ hx =>
    have hreceipts : receipts (es ++ [.finished h.scan.error]) = receipts es := by
      rw [receipts_append]
      exact List.append_nil _
    refine ⟨?_, fun hc => by simp [Handle.cancelled, AsyncScan.cancel] at hc⟩
    rw [hreceipts]
    refine ((List.prefix_append_right_inj _).2 ?_).trans hd.starts
    simp [Handle.outstanding, AsyncScan.outstanding, AsyncScan.coming, AsyncScan.cancel, hx]
  | finish => exact hd.receive rfl hcancelled fun hr => by cases hr
  | drop => exact hd.receive rfl hcancelled fun hr => by cases hr
  | _ => exact hd.receive rfl hcancelled id

theorem Move.reader_eq {may : Producer → World → World → Prop} (hm : Move may h new h') :
    h'.scan.reader = h.scan.reader ∧ h'.scan.start = h.scan.start := by
  have hreceive : h.receive.2.reader = h.scan.reader ∧ h.receive.2.start = h.scan.start := by
    have hr := h.reception
    generalize h.receive = received at hr
    obtain ⟨x, a⟩ := received
    cases hr <;> exact ⟨rfl, rfl⟩
  cases hm with
  | produce =>
    rcases h.produced_cases with ⟨-, producer, queue, hscan⟩ | ⟨e, -, hscan⟩ | ⟨-, hscan⟩ <;>
      rw [hscan] <;> exact ⟨rfl, rfl⟩
  | wait => exact hreceive
  | get => exact hreceive
  | _ => exact ⟨rfl, rfl⟩

theorem AsyncScan.Reception.of_planning {a a' : AsyncScan} {c : Bool} {x : Received}
    (hr : Reception c a x a') (hp : a.producer = .planning) (hq : a.queue = [])
    (ha : a.awaiting = false) :
    receipts [.got x] = [] ∧ a'.producer = .planning ∧ a'.queue = [] := by
  have hdrained (hd : a.Drained c) : False := by
    rcases hd with h | ⟨-, -, -, -, h⟩
    · rw [ha] at h
      cases h
    · rw [hp] at h
      cases h
  cases hr with
  | stopped _ _ => exact ⟨rfl, hp, hq⟩
  | waiting _ _ _ => exact ⟨rfl, hp, hq⟩
  | record _ _ _ h => simp [hq] at h
  | awaiting h _ => exact (hdrained h).elim
  | failed h _ _ => exact (hdrained h).elim
  | last h _ _ => exact (hdrained h).elim

theorem AsyncScan.step_ne_planning (c : Bool) (a : AsyncScan) (w : World) :
    (a.step c w).1.producer ≠ .planning := by
  unfold step
  split
  · rename_i h
    simp [h]
  · simp
  · split <;> simp [AsyncScan.fail]
  · split
    · simp [AsyncScan.exit]
    split
    · simp [AsyncScan.exit]
    split <;> simp [AsyncScan.fail]
  · split
    · simp
    · simp [AsyncScan.fail]
    split <;> simp
  · rename_i h
    split
    · simp [AsyncScan.exit]
    split <;> simp [h]

namespace Handle

/-- How far a scan from a position is: nothing was planned yet, or what it delivers is what a new scan
would have yielded in the world by which it was planned. -/
inductive Progress (r : Reader) (start : Nat) (h : Handle) (es : List Sign) : Prop where
  | unplanned (hp : h.scan.producer = .planning) (hq : h.scan.queue = [])
      (hr : receipts es = []) (hn : ∀ w, .planned w ∉ es)
  | planned {w : World} (hp : h.scan.producer ≠ .planning)
      (hw : ∀ w', .planned w' ∈ es ↔ w' = w) (hd : h.Delivers es (r.items start w))

theorem planned_mem_produced {h : Handle} {w : World} :
    .planned w ∈ h.produced ↔ h.scan.producer = .planning ∧ w = h.world := by
  by_cases hp : h.scan.producer = .planning <;> simp [produced, hp]

end Handle

section

variable {may : Producer → World → World → Prop} {w : World}

theorem Move.of_planned_mem (hm : Move may h new h') (hw : .planned w ∈ new) :
    h.scan.producer = .planning := by
  cases hm with
  | produce => exact (Handle.planned_mem_produced.1 hw).1
  | _ => simp at hw

theorem Move.ne_planning (hm : Move may h new h') (hp : h.scan.producer ≠ .planning) :
    h'.scan.producer ≠ .planning := by
  cases hm with
  | produce => exact AsyncScan.step_ne_planning h.cancelled h.scan h.world
  | wait => rwa [h.reception.producer_eq]
  | get => rwa [h.reception.producer_eq]
  | _ => exact hp

end

theorem Move.progress (hm : Move r.Undisturbed h new h') (hs : h.Sound) (hr : h.scan.reader = r)
    (hstart : h.scan.start = start) (hp : h.Progress r start es) :
    h'.Progress r start (es ++ new) := by
  cases hp with
  | unplanned hp hq hreceipts hn =>
    have hawaiting : h.scan.awaiting = false := by
      refine Bool.eq_false_iff.2 fun ha => ?_
      have ho := (hs.awaiting ha).2.2
      rw [hp] at ho
      cases ho
    have hstay {h' : Handle} {new : List Sign} (hnew : receipts new = [])
        (hno : ∀ w, .planned w ∉ new) (hp' : h'.scan.producer = .planning)
        (hq' : h'.scan.queue = []) : h'.Progress r start (es ++ new) :=
      .unplanned hp' hq' (by rw [receipts_append, hreceipts, hnew, List.nil_append])
        fun w hw => (List.mem_append.1 hw).elim (hn w) (hno w)
    cases hm with
    | produce =>
      have hout : h.outstanding = r.items start h.world := by
        rw [Handle.outstanding, AsyncScan.outstanding, hq, AsyncScan.coming, hp, hr, hstart]
        rfl
      have hd : h.Delivers es (r.items start h.world) := by
        refine ⟨?_, fun _ _ => ?_⟩ <;> rw [hreceipts, hout, List.nil_append]
      refine .planned (AsyncScan.step_ne_planning h.cancelled h.scan h.world) (fun w' => ?_) hd.produce
      simp [hn, Handle.planned_mem_produced, hp]
    | wait =>
      obtain ⟨-, hp', hq'⟩ := h.reception.of_planning hp hq hawaiting
      exact hstay rfl (by simp) hp' hq'
    | get =>
      obtain ⟨hnew, hp', hq'⟩ := h.reception.of_planning hp hq hawaiting
      exact hstay hnew (by simp) hp' hq'
    | _ => exact hstay rfl (by simp) hp hq
  | @planned w hp hw hd =>
    refine .planned (hm.ne_planning hp) (fun w' => ?_) (hm.delivers hs hr hp hd)
    rw [List.mem_append, hw, or_iff_left fun hw' => hp (hm.of_planned_mem hw')]

namespace Handle

def Receives (h : Handle) (es : List Sign) : Prop :=
  h.scan.receiving = true ∨ .got .ended ∈ es ∨ h.phase = .finishing ∨ h.phase = .gone

theorem Receives.keep (hr : h.Receives es) (hscan : h'.scan.receiving = h.scan.receiving)
    (hphase : h'.phase = h.phase) : h'.Receives (es ++ new) := by
  rw [Receives, hscan, hphase]
  exact hr.imp_right (Or.imp_left (List.mem_append_left _))

theorem Receives.of_busy (hr : h.Receives es) (hp : h.phase = .free ∨ h.phase = .receiving) :
    h.scan.receiving = true ∨ .got .ended ∈ es := by
  rcases hr with hr | hr | hr | hr
  · exact .inl hr
  · exact .inr hr
  · simp [hr] at hp
  · simp [hr] at hp

end Handle

theorem AsyncScan.Reception.receiving_or {a a' : AsyncScan} {c : Bool} {x : Received}
    (hr : Reception c a x a') : a'.receiving = a.receiving ∨ x = .ended := by
  cases hr with
  | stopped _ _ => exact .inr rfl
  | _ => exact .inl rfl

theorem Move.receives {may : Producer → World → World → Prop} (hm : Move may h new h')
    (hr : h.Receives es) : h'.Receives (es ++ new) := by
  cases hm with
  | produce => exact hr.keep h.produce_receiver.2.2.2 rfl
  | call hp => exact (hr.of_busy (.inl hp)).imp_right fun hr => .inl (List.mem_append_left _ hr)
  | wait hp hx =>
    rcases h.reception.receiving_or with hsame | hended
    · exact hr.keep hsame rfl
    · rw [hx] at hended
      cases hended
  | get hp hx =>
    rcases h.reception.receiving_or with hsame | hended
    · refine (hr.of_busy (.inr hp)).imp (fun hr => ?_) fun hr => .inl (List.mem_append_left _ hr)
      exact hsame.trans hr
    · exact .inr (.inl (by simp [hended]))
  | finish _ => exact .inr (.inr (.inl rfl))
  | finished _ _ => exact .inr (.inr (.inr rfl))
  | drop _ => exact .inr (.inr (.inr rfl))
  | _ => exact hr.keep rfl rfl

theorem Handle.Sound.spent_of_ended (hs : h.Sound) (hc : h.cancelled = false)
    (hr : h.scan.receiving = true) (hx : h.receive.1 = .ended) :
    h.scan.producer = .exited ∧ h.scan.error = none ∧ h.scan.queue = [] := by
  have hreception := h.reception
  rw [hx] at hreception
  generalize h.receive.2 = a at hreception
  cases hreception with
  | stopped ha hd =>
    have hdone : h.scan.done = true := hd.resolve_right (by simp [hc])
    exact hs.spent hdone ha hr
  | last hd hp he => exact ⟨hs.exited hd hp, he, (hs.drained hd).1⟩

namespace Handle.Course

variable {depth : Nat} {parent : Bool} {w₀ : World}

theorem progress (hc : (r.handle start depth parent w₀).Course r.Undisturbed es h) :
    h.scan.reader = r ∧ h.scan.start = start ∧ h.Progress r start es := by
  have hs := sound_handle r start depth parent w₀
  induction hc with
  | start => exact ⟨rfl, rfl, .unplanned rfl rfl rfl (by simp)⟩
  | move hc hm ih =>
    obtain ⟨hr, hstart, hp⟩ := ih
    exact ⟨hm.reader_eq.1.trans hr, hm.reader_eq.2.trans hstart,
      hm.progress (hc.sound hs) hr hstart hp⟩

theorem receives (hc : (r.handle start depth parent w₀).Course r.Undisturbed es h) :
    h.Receives es := by
  induction hc with
  | start => exact .inl rfl
  | move _ hm ih => exact hm.receives ih

/-- Whatever the schedule of a background scan is, if the log looks the same to it while it has
segments to open, then what was received is the beginning of what a new scan would have yielded when
it was planned, and all of it once the end is received, unless the scan was called off. -/
theorem receipts_of_scan (hc : (r.handle start depth parent w₀).Course r.Undisturbed es h) :
    (receipts es ≠ [] → ∃ w, .planned w ∈ es) ∧
    (∀ w, .planned w ∈ es → receipts es <+: r.items start w) ∧
    ∀ pre post, es = pre ++ .got .ended :: post → .got .ended ∉ pre → parent = false →
      (∀ e ∈ pre, e.callsOff = false) → ∃ w, .planned w ∈ pre ∧ receipts pre = r.items start w := by
  refine ⟨fun hne => ?_, fun w hw => ?_, fun pre post he hfirst hparent hoff => ?_⟩
  · cases hc.progress.2.2 with
    | unplanned _ _ hr _ => exact absurd hr hne
    | @planned w _ hw _ => exact ⟨w, (hw w).2 rfl⟩
  · cases hc.progress.2.2 with
    | unplanned _ _ _ hn => exact absurd hw (hn w)
    | planned _ hw' hd =>
      obtain rfl := (hw' w).1 hw
      exact (List.prefix_append _ _).trans hd.starts
  · obtain ⟨h₁, h₂, hc₁, hm, -⟩ := hc.split he rfl
    obtain ⟨hphase, hended, -⟩ := hm.of_got
    have hcancelled : h₁.cancelled = false := by
      refine Bool.eq_false_iff.2 fun hcancelled => ?_
      rcases hc₁.cancelled_iff.1 hcancelled with hparent' | ⟨e, he, hoff'⟩
      · simp [Handle.cancelled, Reader.handle, Reader.scanAsync, hparent] at hparent'
      · rw [hoff e he] at hoff'
        cases hoff'
    have hreceiving : h₁.scan.receiving = true :=
      (hc₁.receives.of_busy (.inr hphase)).resolve_right hfirst
    obtain ⟨hexited, herror, hqueue⟩ :=
      (hc₁.sound (sound_handle ..)).spent_of_ended hcancelled hreceiving hended.symm
    cases hc₁.progress.2.2 with
    | unplanned hp _ _ _ =>
      rw [hexited] at hp
      cases hp
    | @planned w _ hw hd =>
      have hout : h₁.outstanding = [] := by
        rw [Handle.outstanding, AsyncScan.outstanding, AsyncScan.coming, hexited, herror, hqueue]
        rfl
      have hall := hd.complete hcancelled hreceiving
      rw [hout, List.append_nil] at hall
      exact ⟨w, (hw w).2 rfl, hall⟩

end Handle.Course

def World.withRecord : World :=
  { World.blank with
    disk :=
      { names := ⟨[([bufferFileName 0], .file 0)]⟩
        files := [.bytes (Sparse.ofBytes [4, 1, 2])] }
    marks := [⟨0, 3, 0⟩] }

def Sign.ofRecord : List Sign :=
  [.called, .planned .withRecord, .got (.record ⟨[1, 2], 0, 0, 3⟩), .called, .got .ended]

/-- The owner waits before anything was planned, and everything is gone once the segment is open. -/
theorem Handle.Course.receipts_of_scan_withRecord :
    ∃ h, (Reader.handle ⟨.plain, 0, 0⟩ 0 0 false .withRecord).Course
        (Reader.Undisturbed ⟨.plain, 0, 0⟩) ofRecord h ∧
      Reader.items ⟨.plain, 0, 0⟩ 0 .withRecord = [.ok ⟨[1, 2], 0, 0, 3⟩] := by
  have hopened : (Reader.handle ⟨.plain, 0, 0⟩ 0 0 false .withRecord).Course
      (Reader.Undisturbed ⟨.plain, 0, 0⟩) [.called, .planned .withRecord] _ :=
    ((Course.start.move (.call rfl)).move (.produce _)).move (.produce _)
  have hgone := hopened.move (.elsewhere (w := .blank) fun _ hplan hs =>
    (hs (by cases hplan; rfl)).elim)
  have hc : (Reader.handle ⟨.plain, 0, 0⟩ 0 0 false .withRecord).Course
      (Reader.Undisturbed ⟨.plain, 0, 0⟩) ofRecord _ :=
    (((((((hgone.move (.produce _)).move (.produce _)).move (.get rfl (by decide +kernel))).move
      (.produce _)).move (.produce _)).move (.produce _)).move (.call rfl)).move
        (.get rfl (by decide +kernel))
  obtain ⟨-, -, hend⟩ := hc.receipts_of_scan
  obtain ⟨w, hw, hall⟩ := hend
    [.called, .planned .withRecord, .got (.record ⟨[1, 2], 0, 0, 3⟩), .called] [] rfl (by simp) rfl
    (by simp [Sign.callsOff])
  obtain rfl : w = .withRecord := by simpa using hw
  exact ⟨_, hc, hall.symm⟩

end RecordLog
