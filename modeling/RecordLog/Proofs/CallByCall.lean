import Mathlib
import RecordLog.Proofs.Reading

/-!
# Scans call by call

Between two calls a scan has the rest of an open segment and the segments it has not come to. If each
of them shows certain records whenever it is opened, the scan yields these records one by one and
then ends, unless its index was closed when a segment had to be looked up there.
-/

namespace RecordLog

variable {start : Nat} {rs : List Record} {w : World}

theorem Cursor.nextFrom_of_drain {cur : Cursor} (h : cur.drain start = (rs, none)) :
    (∃ r rest cur', rs = r :: rest ∧ cur.nextFrom start = (some (.ok r), cur') ∧
        cur'.drain start = (rest, none)) ∨
      rs = [] ∧ ∃ cur', cur.nextFrom start = (none, cur') := by
  rw [drain_eq] at h
  cases hx : cur.nextFrom start with
  | mk found cur' =>
    rw [hx] at h
    rcases found with _ | e | r
    · exact .inr ⟨(congrArg Prod.fst h).symm, cur', rfl⟩
    · cases congrArg Prod.snd h
    · refine .inl ⟨r, (cur'.drain start).1, cur', (congrArg Prod.fst h).symm, rfl, ?_⟩
      exact Prod.ext rfl (show (cur'.drain start).2 = none from congrArg Prod.snd h)

/-- A segment shows some records when it is opened, or cannot be found since the index was closed. -/
def Reader.Opens (r : Reader) (start stop : Nat) (source : Source) (rs : List Record) (w : World) :
    Prop :=
  Ends (r.openSource start stop source) w
    (fun cur w' => cur.drain start = (rs, none) ∧ World.Idle w w')
    fun e w' => e = .error .closed ∧ Store.Shut r.store w ∧ World.Idle w w'

namespace Scan

variable {shows : Source → List Record → Prop} {s s' : Scan}

def front (s : Scan) : List Record × Option Error :=
  match s.cursor with
  | none => ([], none)
  | some cur => cur.drain s.plan.start

/-- What a scan has left to show. -/
structure Awaits (shows : Source → List Record → Prop) (s : Scan) (rs : List Record) : Prop where
  failed : s.failed = false
  parts : ∃ front parts, rs = front ++ parts.flatten ∧ s.front = (front, none) ∧
    List.Forall₂ shows s.plan.sources parts

structure Over (s : Scan) : Prop where
  failed : s.failed = false
  cursor : s.cursor = none
  sources : s.plan.sources = []

theorem next_of_over (h : s.Over) (w : World) : s.next w = (.done, s, w) := by
  obtain ⟨reader, ⟨start, stop, sources⟩, cursor, failed⟩ := s
  obtain ⟨rfl, rfl, rfl⟩ := h
  simp [next, advance]

structure Same (s s' : Scan) : Prop where
  reader : s'.reader = s.reader
  start : s'.plan.start = s.plan.start
  stop : s'.plan.stop = s.plan.stop

/-- What a call of a scan comes to. -/
inductive Comes (shows : Source → List Record → Prop) (s : Scan) (w : World) :
    List Record → Item × Scan × World → Prop where
  | record {r : Record} {rest : List Record} {s' : Scan} {w' : World} (ha : Awaits shows s' rest)
      (hs : s.Same s') (hi : World.Idle w w') : Comes shows s w (r :: rest) (.record r, s', w')
  | done {s' : Scan} {w' : World} (ho : s'.Over) (hs : s.Same s') (hi : World.Idle w w') :
      Comes shows s w [] (.done, s', w')
  | closed {rs : List Record} {s' : Scan} {w' : World} (hf : s'.failed = true)
      (hc : Store.Shut s.reader.store w) (hs : s.Same s') (hi : World.Idle w w') :
      Comes shows s w rs (.error .closed, s', w')

theorem Comes.after {out : Item × Scan × World} {w₁ : World} (h : Comes shows s' w₁ rs out)
    (hs : s.Same s') (hi : World.Idle w w₁) : Comes shows s w rs out := by
  have hsame {s'' : Scan} (h : s'.Same s'') : s.Same s'' :=
    ⟨h.reader.trans hs.reader, h.start.trans hs.start, h.stop.trans hs.stop⟩
  cases h with
  | record ha hs' hi' => exact .record ha (hsame hs') (hi.trans hi')
  | done ho hs' hi' => exact .done ho (hsame hs') (hi.trans hi')
  | closed hf hc hs' hi' =>
    refine .closed hf ?_ (hsame hs') (hi.trans hi')
    rw [hs.reader] at hc
    exact (Store.shut_idle hi).1 hc

section opens

variable (hopen : ∀ source rs w', World.Idle w w' → shows source rs →
  s.reader.Opens s.plan.start s.plan.stop source rs w')
include hopen

theorem advance_comes {sources : List Source} {parts : List (List Record)} (hf : s.failed = false)
    (h : List.Forall₂ shows sources parts) :
    Comes shows s w parts.flatten (s.advance sources w) := by
  induction h generalizing s w with
  | nil =>
    rw [advance]
    exact .done ⟨hf, rfl, rfl⟩ ⟨rfl, rfl, rfl⟩ (.refl w)
  | @cons source part sources parts hpart hrest ih =>
    rw [advance]
    have hends := hopen source part w (.refl w) hpart
    cases hx : s.reader.openSource s.plan.start s.plan.stop source w with
    | error stop w' =>
      obtain ⟨rfl, hshut, hi⟩ := hends.error hx
      exact .closed rfl hshut ⟨rfl, rfl, rfl⟩ hi
    | ok cur w' =>
      obtain ⟨hdrain, hi⟩ := hends.ok hx
      dsimp only
      rw [List.flatten_cons]
      rcases Cursor.nextFrom_of_drain hdrain with ⟨r, rest, cur', rfl, hnext, hleft⟩ |
        ⟨rfl, cur', hnext⟩
      · rw [hnext]
        exact .record ⟨hf, rest, parts, rfl, hleft, hrest⟩ ⟨rfl, rfl, rfl⟩ hi
      · rw [hnext]
        have hlater := ih (s := { s with plan := { s.plan with sources }, cursor := none }) (w := w')
          (fun source' rs' w'' hi' => hopen source' rs' w'' (hi.trans hi')) hf
        exact hlater.after ⟨rfl, rfl, rfl⟩ hi

theorem next_comes (h : Awaits shows s rs) : Comes shows s w rs (s.next w) := by
  obtain ⟨hf, front, parts, rfl, hfront, hparts⟩ := h
  rw [next, if_neg (by simp [hf])]
  rw [Scan.front] at hfront
  cases hc : s.cursor with
  | none =>
    rw [hc] at hfront
    obtain rfl : [] = front := congrArg Prod.fst hfront
    exact advance_comes hopen hf hparts
  | some cur =>
    rw [hc] at hfront
    dsimp only
    rcases Cursor.nextFrom_of_drain hfront with ⟨r, rest, cur', rfl, hnext, hleft⟩ |
      ⟨rfl, cur', hnext⟩
    · rw [hnext]
      exact .record ⟨hf, rest, parts, rfl, hleft, hparts⟩ ⟨rfl, rfl, rfl⟩ (.refl w)
    · rw [hnext]
      exact advance_comes hopen hf hparts

end opens

end Scan

end RecordLog
