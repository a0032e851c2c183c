import Mathlib
import RecordLog.Proofs.Schedules

/-!
# Waiting is one of the schedules

A session lets producers go on only while it waits for one of them, and then all of them by turns. For
the scan that is waited for this is a course like any other: its producer takes steps, what the others
do happens elsewhere, and in the end there is something to receive or the producer has exited.
-/

namespace RecordLog

open Sign

def Awaited.handle (tokens : Tokens) (a : Awaited) (w : World) (phase : Phase) : Handle :=
  ⟨a.task.scan, tokens.getD a.task.token false, w, phase⟩

variable {h h' h'' : Handle} {tokens : Tokens} {w w' : World}

namespace Handle

/-- What came of a handle while its owner waited. -/
def Runs (h h' : Handle) : Prop :=
  ∃ es, h.Course Anything es h' ∧ ∀ e ∈ es, e.ofProducer = true

namespace Runs

theorem refl (h : Handle) : h.Runs h := ⟨[], .start, by simp⟩

theorem trans (hr : h.Runs h') (hr' : h'.Runs h'') : h.Runs h'' := by
  obtain ⟨es, hc, he⟩ := hr
  obtain ⟨es', hc', he'⟩ := hr'
  exact ⟨es ++ es', hc.trans hc', fun e h => (List.mem_append.1 h).elim (he e) (he' e)⟩

theorem produce (h : Handle) : h.Runs h.produce :=
  ⟨[] ++ h.produced, .move .start (.produce h), fun _ he => ofProducer_of_mem_produced he⟩

theorem elsewhere (h : Handle) (w : World) : h.Runs { h with world := w } :=
  ⟨[] ++ [], .move .start (.elsewhere trivial), by simp⟩

theorem wait (hp : h.phase = .receiving) (hx : h.receive.1 = .pending) :
    h.Runs { h with scan := h.receive.2 } :=
  ⟨[] ++ [], .move .start (.wait hp hx), by simp⟩

end Runs

theorem runs_go (quota : Nat) (h : Handle) :
    h.Runs { h with
      scan := (h.scan.go h.cancelled quota h.world).1
      world := (h.scan.go h.cancelled quota h.world).2 } := by
  obtain ⟨a, parent, w, phase⟩ := h
  generalize hc : (Handle.mk a parent w phase).cancelled = c
  dsimp only
  fun_induction AsyncScan.go c quota a w with
  | case1 => exact .refl _
  | case2 quota a w hidle hleft next hwaits =>
    subst hc
    exact .produce _
  | case3 quota a w hidle hleft next hwaits ih =>
    subst hc
    have hsame := (Handle.mk a parent w phase).produce_receiver.2.2.1
    exact (Runs.produce _).trans (ih (by rw [cancelled, cancelled]; exact congrArg (· || parent) hsame))

end Handle

namespace Awaited

variable {a a' : Awaited}

theorem runs_round (a : Awaited) (w : World) (phase : Phase) :
    (a.handle tokens w phase).Runs
      ((a.round tokens w).1.handle tokens (a.round tokens w).2 phase) :=
  (Handle.Runs.elsewhere _ (ScanTask.turns tokens a.before w).2).trans
    ((Handle.runs_go a.task.scan.quota _).trans (Handle.Runs.elsewhere _ _))

theorem exists_course_recv {x : Received} (h : a.recv tokens w = (x, a', w')) :
    ∃ es, (a.handle tokens w .free).Course Anything (.called :: es ++ [.got x])
      (a'.handle tokens w' .free) ∧ ∀ e ∈ es, e.ofProducer = true := by
  suffices ∃ h', (a.handle tokens w .receiving).Runs h' ∧
      Move Anything h' [.got x] (a'.handle tokens w' .free) by
    obtain ⟨h', ⟨es, hc, he⟩, hm⟩ := this
    have hcalled : (a.handle tokens w .free).Course Anything ([] ++ [.called])
        (a.handle tokens w .receiving) := .move .start (.call rfl)
    exact ⟨es, (hcalled.trans hc).move hm, he⟩
  fun_induction recv tokens a w with
  | case1 a w scan hx hleft next ih =>
    obtain ⟨h', hruns, hm⟩ := ih h
    have hreceive : (a.handle tokens w .receiving).receive = (.pending, scan) := hx
    have hwait : (a.handle tokens w .receiving).Runs
        ((a.setScan scan).handle tokens w .receiving) := by
      have := Handle.Runs.wait (h := a.handle tokens w .receiving) rfl (congrArg Prod.fst hx)
      rwa [hreceive] at this
    exact ⟨h', (hwait.trans (runs_round _ w .receiving)).trans hruns, hm⟩
  | case2 a w received scan hne hx =>
    simp only [Prod.mk.injEq] at h
    obtain ⟨rfl, rfl, rfl⟩ := h
    have hreceive : (a.handle tokens w .receiving).receive = (received, scan) := hx
    have hget : Move Anything (a.handle tokens w .receiving) _ _ :=
      .get rfl (by rwa [hreceive])
    rw [hreceive] at hget
    exact ⟨_, .refl _, hget⟩

theorem exited_of_idle {c : Bool} {a : AsyncScan} (hr : a.receiving = false)
    (hi : a.idle c = true) : a.producer = .exited := by
  unfold AsyncScan.idle at hi
  split at hi
  · assumption
  · simp [hr] at hi
  · cases hi

theorem idle_settle (a : Awaited) (w : World) :
    (a.settle tokens w).1.task.idle tokens = true := by
  fun_induction settle tokens a w with
  | case1 a w hidle => exact hidle
  | case2 a w hidle hleft next ih => exact ih

theorem runs_settle (a : Awaited) (w : World) (phase : Phase) :
    (a.handle tokens w phase).Runs
      ((a.settle tokens w).1.handle tokens (a.settle tokens w).2 phase) := by
  fun_induction settle tokens a w with
  | case1 a w hidle => exact .refl _
  | case2 a w hidle hleft next ih => exact (runs_round a w phase).trans ih

theorem exists_course_finish {e : Option Error} {tasks : List ScanTask}
    (h : a.finish tokens w = (e, tasks, w')) :
    ∃ es h', (a.handle tokens w .free).Course Anything (es ++ [.finished e]) h' ∧
      h'.world = w' ∧ ∀ e ∈ es, e.ofProducer = true := by
  let closed := a.setScan a.task.scan.close
  have hclosed : (a.handle tokens w .free).Course Anything ([] ++ [])
      (closed.handle tokens w .finishing) := .move .start (.finish rfl)
  obtain ⟨es, hc, he⟩ : (closed.handle tokens w .finishing).Runs _ := runs_settle closed w .finishing
  have hexited : (closed.settle tokens w).1.task.scan.producer = .exited :=
    exited_of_idle (hc.not_receiving rfl) (idle_settle closed w)
  have hfinished := (hclosed.trans hc).move (.finished rfl hexited)
  cases h
  exact ⟨es, _, hfinished, rfl, he⟩

end Awaited

end RecordLog
