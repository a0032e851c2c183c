import Mathlib
import RecordLog.Proofs.Schedules

/-!
# Calling off is final, and an error is told once

Whoever calls a scan that was called off receives the end and nothing else, and so does whoever was
told the end or an error before. An error of the producer is owed from when the producer ends until it
is received or told by `finish`, so it is told once at most and is not lost on the way.
-/

namespace RecordLog

namespace Sign

/-- The errors that the owner of a handle was told. -/
def reports : List Sign → List Error :=
  List.filterMap fun
    | .got (.error e) => some e
    | .finished e => e
    | _ => none

/-- The errors that the producer ended with. -/
def failures : List Sign → List Error :=
  List.filterMap fun
    | .failed e => some e
    | _ => none

def Quiet (es : List Sign) : Prop := ∀ x, .got x ∈ es → x = .ended

theorem reports_append (es es' : List Sign) : reports (es ++ es') = reports es ++ reports es' :=
  List.filterMap_append

theorem failures_append (es es' : List Sign) : failures (es ++ es') = failures es ++ failures es' :=
  List.filterMap_append

theorem mem_failures {e : Error} {es : List Sign} : e ∈ failures es ↔ .failed e ∈ es := by
  refine List.mem_filterMap.trans ⟨fun h => ?_, fun h => ⟨_, h, rfl⟩⟩
  obtain ⟨s, hs, he⟩ := h
  cases s <;> cases he
  exact hs

theorem mem_reports {e : Error} {es : List Sign} :
    e ∈ reports es ↔ .got (.error e) ∈ es ∨ .finished (some e) ∈ es := by
  refine List.mem_filterMap.trans ⟨fun h => ?_, ?_⟩
  · obtain ⟨s, hs, he⟩ := h
    cases s with
    | got x =>
      cases x <;> cases he
      exact .inl hs
    | finished o =>
      obtain rfl : o = some e := he
      exact .inr hs
    | _ => cases he
  · rintro (h | h) <;> exact ⟨_, h, rfl⟩

end Sign

open Sign Handle

variable {may : Producer → World → World → Prop} {h h' h₀ : Handle} {es es' new : List Sign}
  {c : Bool} {a a' : AsyncScan} {w : World} {x : Received}

structure Handle.Silent (h : Handle) : Prop where
  stopped : h.scan.done = true ∨ h.cancelled = true
  awaiting : h.scan.awaiting = false

namespace AsyncScan.Reception

theorem of_silent (hr : Reception c a x a') (hd : a.done = true ∨ c = true)
    (ha : a.awaiting = false) : x = .ended ∧ a' = a.stop := by
  have hnot (h : a.done = false) (h' : c = false) : False := by simp [h, h'] at hd
  have hdrained (h : a.Drained c) : False := by
    rcases h with h | ⟨-, h, h', -⟩
    · exact absurd (ha.symm.trans h) (by decide)
    · exact hnot h h'
  cases hr with
  | stopped _ _ => exact ⟨rfl, rfl⟩
  | record _ h h' _ => exact (hnot h h').elim
  | waiting _ h h' => exact (hnot h h').elim
  | awaiting h _ => exact (hdrained h).elim
  | failed h _ _ => exact (hdrained h).elim
  | last h _ _ => exact (hdrained h).elim

theorem done (hr : Reception c a x a') (hx : x = .ended ∨ ∃ e, x = .error e) :
    a'.done = true ∧ a'.awaiting = false := by
  cases hr with
  | stopped ha _ => exact ⟨rfl, ha⟩
  | failed _ _ _ => exact ⟨rfl, rfl⟩
  | last _ _ _ => exact ⟨rfl, rfl⟩
  | _ => simp at hx

end AsyncScan.Reception

theorem Move.silent (hm : Move may h new h') (hs : h.Silent) : h'.Silent ∧ Quiet new := by
  have hoff (hx : h'.scan.done = h.scan.done) (ha : h'.scan.awaiting = h.scan.awaiting) :
      h'.Silent := by
    refine ⟨hs.stopped.imp (fun hd => hx.trans hd) fun hc => ?_, ha.trans hs.awaiting⟩
    exact hm.cancelled_iff.2 (.inl hc)
  cases hm with
  | produce =>
    obtain ⟨hd, ha, -, -⟩ := h.produce_receiver
    exact ⟨hoff hd ha, fun x hx => (Bool.false_ne_true (ofProducer_of_mem_produced hx)).elim⟩
  | wait _ hx =>
    have hended := (h.reception.of_silent hs.stopped hs.awaiting).1
    exact absurd (hended.symm.trans hx) (by decide)
  | get _ hx =>
    obtain ⟨hended, hstop⟩ := h.reception.of_silent hs.stopped hs.awaiting
    refine ⟨⟨.inl ?_, ?_⟩, fun x hx => ?_⟩
    · rw [hstop]
      rfl
    · rw [hstop]
      exact hs.awaiting
    · rw [List.mem_singleton] at hx
      cases hx
      exact hended
  | _ => exact ⟨hoff rfl rfl, by simp [Quiet]⟩

namespace Handle.Course

theorem quiet (hc : h.Course may es h') (hs : h.Silent) : Quiet es := by
  suffices h'.Silent ∧ Quiet es from this.2
  induction hc with
  | start => exact ⟨hs, by simp [Quiet]⟩
  | move _ hm ih =>
    obtain ⟨hs', hq⟩ := hm.silent ih.1
    refine ⟨hs', fun x hx => ?_⟩
    exact (List.mem_append.1 hx).elim (ih.2 x) (hq x)

theorem quiet_of_called (hc : h₀.Course may es h) (hs : h₀.Sound) {pre post : List Sign}
    (he : es = pre ++ .called :: post)
    (hoff : h₀.cancelled = true ∨ ∃ e ∈ pre, e.callsOff = true) : Quiet post := by
  obtain ⟨h₁, h₂, hc₁, hm, hc₂⟩ := hc.split he rfl
  obtain ⟨hp, rfl⟩ := hm.of_called
  have hcancelled : h₁.cancelled = true := hc₁.cancelled_iff.2 hoff
  exact hc₂.quiet ⟨.inr hcancelled, (hc₁.sound hs).free hp⟩

theorem quiet_of_got (hc : h₀.Course may es h) {pre post : List Sign}
    (he : es = pre ++ .got x :: post) (hx : x = .ended ∨ ∃ e, x = .error e) : Quiet post := by
  obtain ⟨h₁, h₂, -, hm, hc₂⟩ := hc.split he rfl
  obtain ⟨-, rfl, rfl⟩ := hm.of_got
  obtain ⟨hd, ha⟩ := h₁.reception.done hx
  exact hc₂.quiet ⟨.inl hd, ha⟩

end Handle.Course

/-! ## Errors of the producer -/

namespace Handle

/-- The error that the producer ended with, as long as nobody was told it. -/
def owed (h : Handle) : Option Error := h.scan.producer.ending.or h.scan.error

theorem owed_of_exited (hp : h.scan.producer = .exited) : h.owed = h.scan.error := by
  rw [owed, hp]
  rfl

theorem owed_of_not_exited (hs : h.Sound) (hp : h.scan.producer ≠ .exited) :
    h.owed = h.scan.producer.ending := by
  rw [owed, hs.error hp, Option.or_none]

theorem owed_of_not_over (hs : h.Sound) (ho : h.scan.producer.isOver = false) : h.owed = none := by
  have hproducer : h.scan.producer ≠ .exited ∧ h.scan.producer.ending = none := by
    cases hp : h.scan.producer <;> simp_all [Producer.isOver, Producer.ending]
  rw [owed_of_not_exited hs hproducer.1, hproducer.2]

theorem owed_produce (hs : h.Sound) (ho : h.scan.producer.isOver = true) :
    h.produce.scan.producer = .exited ∧ h.produce.owed = h.owed := by
  rcases h.produced_cases with ⟨ho', -⟩ | ⟨e, hp, hscan⟩ | ⟨hp, hscan⟩
  · exact absurd (ho.symm.trans ho') (by decide)
  · have hexited : h.produce.scan.producer = .exited := by rw [hscan]
    refine ⟨hexited, ?_⟩
    rw [owed_of_exited hexited, hscan, owed_of_not_exited hs (by simp [hp]), hp]
    rfl
  · have hexited : h.produce.scan.producer = .exited := by rw [hscan, hp]
    exact ⟨hexited, by rw [owed_of_exited hexited, hscan, owed_of_exited hp]⟩

theorem reports_produced (h : Handle) : reports h.produced = [] :=
  List.filterMap_eq_nil_iff.2 fun e he => by
    have := ofProducer_of_mem_produced he
    cases e <;> first | rfl | cases this

theorem failures_produced (h : Handle) :
    failures h.produced = h.produce.scan.producer.ending.toList := by
  have hplanned : failures (if h.scan.producer = .planning then [.planned h.world] else []) = [] := by
    split <;> rfl
  rw [produced, failures_append, hplanned, List.nil_append]
  cases h.produce.scan.producer.ending <;> rfl

/-- Each error that the producer ended with was told or is still owed. -/
structure Accounts (h : Handle) (es : List Sign) : Prop where
  failures_eq : failures es = reports es ++ h.owed.toList
  early : h.scan.producer.isOver = false → failures es = []
  once : (failures es).length ≤ 1

namespace Accounts

theorem produce (ha : h.Accounts es) (hs : h.Sound) : h.produce.Accounts (es ++ h.produced) := by
  have hreports : reports (es ++ h.produced) = reports es := by
    rw [reports_append, reports_produced, List.append_nil]
  have hfailures : failures (es ++ h.produced) =
      failures es ++ h.produce.scan.producer.ending.toList := by
    rw [failures_append, failures_produced]
  cases ho : h.scan.producer.isOver with
  | true =>
    obtain ⟨hexited, howed⟩ := owed_produce hs ho
    have hnone : h.produce.scan.producer.ending = none := by rw [hexited]; rfl
    rw [hnone, Option.toList_none, List.append_nil] at hfailures
    refine ⟨by rw [hfailures, hreports, howed, ha.failures_eq], fun ho' => ?_, hfailures ▸ ha.once⟩
    rw [hexited] at ho'
    cases ho'
  | false =>
    obtain ⟨producer, queue, hscan⟩ := h.scan.step_early (c := h.cancelled) (w := h.world) ho
    have hnone := ha.early ho
    have hempty : reports es = [] := by
      have := ha.failures_eq
      rw [hnone, eq_comm, List.append_eq_nil_iff] at this
      exact this.1
    have herror : h.produce.scan.error = none :=
      (congrArg AsyncScan.error hscan).trans (hs.error_of_not_over ho)
    have howed : h.produce.owed = h.produce.scan.producer.ending := by
      rw [owed, herror, Option.or_none]
    rw [hnone, List.nil_append, ← howed] at hfailures
    refine ⟨by rw [hfailures, hreports, hempty, List.nil_append], fun ho' => ?_, ?_⟩
    · rw [hfailures, owed_of_not_over hs.produce ho']
      rfl
    · rw [hfailures]
      exact Option.length_toList_le

theorem pay (ha : h.Accounts es) (hp : h'.scan.producer = h.scan.producer)
    (hf : failures new = []) (ho : h.owed.toList = reports new ++ h'.owed.toList) :
    h'.Accounts (es ++ new) := by
  have hfailures : failures (es ++ new) = failures es := by
    rw [failures_append, hf, List.append_nil]
  refine ⟨?_, fun ho' => ?_, hfailures ▸ ha.once⟩
  · rw [hfailures, reports_append, List.append_assoc, ← ho, ha.failures_eq]
  · rw [hfailures]
    exact ha.early (hp ▸ ho')

end Accounts

theorem owed_receive (hs : h.Sound) (hr : h.scan.Reception c x a) (phase : Phase) :
    h.owed.toList = reports [.got x] ++ { h with scan := a, phase }.owed.toList := by
  cases hr with
  | failed hd hp he => simp [owed, hs.exited hd hp, he, reports, Producer.ending]
  | _ => rfl

end Handle

theorem Move.accounts (hm : Move may h new h') (hs : h.Sound) (ha : h.Accounts es) :
    h'.Accounts (es ++ new) := by
  cases hm with
  | produce => exact ha.produce hs
  | wait _ hx =>
    have ho := Handle.owed_receive hs h.reception h.phase
    rw [hx] at ho
    exact ha.pay h.reception.producer_eq rfl ho
  | get =>
    exact ha.pay h.reception.producer_eq rfl (Handle.owed_receive hs h.reception .free)
  | finished _ hx =>
    refine ha.pay rfl rfl ?_
    cases he : h.scan.error <;> simp [Handle.owed, AsyncScan.cancel, hx, he, reports, Producer.ending]
  | _ => exact ha.pay rfl rfl rfl

namespace Handle.Course

theorem accounts (hc : h₀.Course may es h) (hs : h₀.Sound) (ha : h₀.Accounts []) :
    h.Accounts es := by
  induction hc with
  | start => exact ha
  | move hc hm ih => exact hm.accounts (hc.sound hs) ih

theorem gone (hc : h.Course may es h') (hg : h.phase = .gone) (hp : h.scan.producer = .exited) :
    h'.phase = .gone ∧ h'.scan.producer = .exited ∧ failures es = [] := by
  induction hc with
  | start => exact ⟨hg, hp, rfl⟩
  | @move es new h h' _ hm ih =>
    obtain ⟨hg, hp, hf⟩ := ih
    rw [failures_append, hf, List.nil_append]
    have hbusy {phase : Phase} {p : Prop} (h : h.phase = phase) (hne : Phase.gone ≠ phase) : p :=
      absurd (hg.symm.trans h) hne
    cases hm with
    | produce =>
      have hexited : h.produce.scan.producer = .exited :=
        (congrArg (·.1.producer) (h.scan.step_exited hp)).trans hp
      exact ⟨hg, hexited, by rw [failures_produced, hexited]; rfl⟩
    | elsewhere _ => exact ⟨hg, hp, rfl⟩
    | callOffParent => exact ⟨hg, hp, rfl⟩
    | call h => exact hbusy h (by decide)
    | wait h _ => exact hbusy h (by decide)
    | get h _ => exact hbusy h (by decide)
    | finish h => exact hbusy h (by decide)
    | finished h _ => exact hbusy h (by decide)
    | callOff h => exact absurd hg h
    | drop h => exact absurd hg h

theorem gone_of_finished (hc : h₀.Course may es h) {o : Option Error} (ho : .finished o ∈ es) :
    h.phase = .gone := by
  obtain ⟨pre, post, rfl⟩ := List.append_of_mem ho
  obtain ⟨h₁, h₂, -, hm, hc₂⟩ := hc.split rfl rfl
  obtain ⟨-, hp, -, rfl⟩ := hm.of_finished
  exact (hc₂.gone rfl hp).1

/-- What `finish` tells is what the producer failed with, unless that was received. -/
theorem eq_of_finished (hc : h₀.Course may es h) (hs : h₀.Sound) (ha : h₀.Accounts []) {e : Error}
    {o : Option Error} (he : .failed e ∈ es) (ho : .finished o ∈ es)
    (hgot : ∀ e, .got (.error e) ∉ es) : o = some e := by
  obtain ⟨pre, post, rfl⟩ := List.append_of_mem ho
  obtain ⟨h₁, h₂, hc₁, hm, hc₂⟩ := hc.split rfl rfl
  obtain ⟨hphase, hp, rfl, rfl⟩ := hm.of_finished
  obtain ⟨-, -, hpost⟩ := hc₂.gone rfl hp
  have hfailed : e ∈ failures pre := by
    rw [← mem_failures, failures_append, List.mem_append] at he
    refine he.resolve_right fun he => ?_
    rcases List.mem_cons.1 (mem_failures.1 he) with he | he
    · cases he
    · rw [← mem_failures, hpost] at he
      cases he
  have hreports : reports pre = [] := by
    refine List.eq_nil_iff_forall_not_mem.2 fun e he => ?_
    rcases mem_reports.1 he with he | he
    · exact hgot e (List.mem_append_left _ he)
    · exact absurd (hphase.symm.trans (hc₁.gone_of_finished he)) (by decide)
  rw [(hc₁.accounts hs ha).failures_eq, hreports, List.nil_append, Handle.owed_of_exited hp,
    Option.mem_toList] at hfailed
  exact hfailed

end Handle.Course

theorem Reader.accounts_handle (r : Reader) (start depth : Nat) (parent : Bool) (w : World) :
    (r.handle start depth parent w).Accounts [] where
  failures_eq := rfl
  early _ := rfl
  once := Nat.zero_le _

/-- Calling a background scan off is final, and so is receiving the end or an error: from then on a
call receives nothing but the end. An error of the producer is told once at most and none is made up,
and `finish` tells it if nobody received it. Nothing that is done to a handle calls its parent off. -/
theorem Handle.Course.final {r : Reader} {start depth : Nat} {parent : Bool} {w : World}
    (hc : (r.handle start depth parent w).Course may es h) :
    (∀ pre post, es = pre ++ .called :: post →
      (parent = true ∨ ∃ e ∈ pre, e.callsOff = true) → Quiet post) ∧
    (∀ pre x post, es = pre ++ .got x :: post → (x = .ended ∨ ∃ e, x = .error e) → Quiet post) ∧
    ((reports es).length ≤ 1 ∧ ∀ e ∈ reports es, .failed e ∈ es) ∧
    (∀ e o, .failed e ∈ es → .finished o ∈ es → (∀ e, .got (.error e) ∉ es) → o = some e) ∧
    (h.parent = true ↔ parent = true ∨ .parentCalledOff ∈ es) ∧
    ∀ (s : Session) (a : Awaited) (c : AsyncCommand), (s.async a c).1.tokens = s.tokens := by
  have hs := Handle.sound_handle r start depth parent w
  have ha := r.accounts_handle start depth parent w
  have haccounts := hc.accounts hs ha
  have htold : reports es <+: failures es := ⟨_, haccounts.failures_eq.symm⟩
  refine ⟨fun pre post he hoff => hc.quiet_of_called hs he ?_,
    fun pre x post he hx => hc.quiet_of_got he hx,
    ⟨htold.length_le.trans haccounts.once, fun e he => mem_failures.1 (htold.subset he)⟩,
    fun e o he ho hgot => hc.eq_of_finished hs ha he ho hgot, hc.parent_iff,
    fun s a c => ?_⟩
  · refine hoff.imp_left fun hparent => ?_
    rw [Handle.cancelled, Reader.handle, hparent, Bool.or_true]
  · cases c <;> rfl

/-- What can be seen of a scan over an index that is closed, called off before its error was
received. -/
def Sign.overClosedIndex : List Sign :=
  [.planned .blank, .failed .closed, .calledOff, .called, .got .ended, .finished (some .closed)]

theorem Handle.Course.final_overClosedIndex :
    ∃ h, (Reader.handle ⟨.plain, 1, 0⟩ 0 0 false .blank).Course Anything overClosedIndex h ∧
      Quiet [.got .ended, .finished (some .closed)] ∧ reports overClosedIndex = [.closed] ∧
      (∀ o, .finished o ∈ overClosedIndex → o = some .closed) ∧ h.parent = false := by
  have hc : (Reader.handle ⟨.plain, 1, 0⟩ 0 0 false .blank).Course Anything overClosedIndex _ :=
    ((((((Course.start.move (.produce _)).move (.callOff (by decide))).move (.call rfl)).move
      (.get rfl (by decide +kernel))).move (.finish rfl)).move (.produce _)).move
        (.finished rfl rfl)
  obtain ⟨hcalled, -, ⟨honce, hfailed⟩, hfinish, hparent, -⟩ := hc.final
  refine ⟨_, hc, ?_, ?_, ?_, ?_⟩
  · exact hcalled [.planned .blank, .failed .closed, .calledOff] _ rfl (.inr ⟨.calledOff, by simp, rfl⟩)
  · rfl
  · exact fun o ho => hfinish .closed o (by simp [overClosedIndex]) ho (by simp [overClosedIndex])
  · refine Bool.eq_false_iff.2 fun hp => ?_
    simpa [overClosedIndex] using hparent.1 hp

end RecordLog
