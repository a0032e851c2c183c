import Mathlib
import RecordLog.Proofs.OpenFolder
import RecordLog.Proofs.Refinement

/-!
# Indexes and their history

What an index answers follows from the requests that were granted before: a request for something
gets what the latest request put, be it in the same unit of work or in an earlier one that ended
well. A unit of work that stopped leaves no trace, and after the index was closed none begins. So
nobody who uses a new index can tell whether its tables are in memory or in a file.
-/

namespace RecordLog

variable {α β : Type} {past past' : List Request}

namespace Request

def buffer? : Request → Option BufferState
  | .putBuffer b => some b
  | _ => none

def stats? : Request → Option Stats
  | .putStats s => some s
  | _ => none

def position? (name : String) : Request → Option Nat
  | .putCheckpoint name' pos => if name' = name then some pos else none
  | _ => none

def chunk? (key : Nat) : Request → Option Chunk
  | .addChunk key' c => if key' = key then some c else none
  | _ => none

theorem eq_of_buffer? {r : Request} {b : BufferState} (h : r.buffer? = some b) :
    r = .putBuffer b := by
  cases r <;> cases h
  rfl

theorem eq_of_stats? {r : Request} {s : Stats} (h : r.stats? = some s) : r = .putStats s := by
  cases r <;> cases h
  rfl

theorem eq_of_position? {r : Request} {name : String} {pos : Nat}
    (h : r.position? name = some pos) : r = .putCheckpoint name pos := by
  cases r <;> try cases h
  obtain ⟨rfl, rfl⟩ := (Option.ite_none_right_eq_some.1 h).imp_right Option.some.inj
  rfl

theorem eq_of_chunk? {r : Request} {key : Nat} {c : Chunk} (h : r.chunk? key = some c) :
    r = .addChunk key c := by
  cases r <;> try cases h
  obtain ⟨rfl, rfl⟩ := (Option.ite_none_right_eq_some.1 h).imp_right Option.some.inj
  rfl

def latest (f : Request → Option β) (past : List Request) : Option β := (past.filterMap f).getLast?

theorem latest_concat (f : Request → Option β) (past : List Request) (r : Request) :
    latest f (past ++ [r]) = (f r).or (latest f past) := by
  rw [latest, List.filterMap_append, List.getLast?_append]
  cases h : f r <;> simp [latest, h]

theorem exists_of_latest {f : Request → Option β} {b : β} (h : latest f past = some b) :
    ∃ r ∈ past, f r = some b :=
  List.mem_filterMap.1 (List.mem_of_getLast? h)

/-- What a request has to be answered after others. Chunks come in ascending order of their keys. -/
def Fits (past : List Request) : (r : Request) → r.Answer → Prop
  | .buffer, b => b = latest buffer? past
  | .chunks, cs => ∃ es : List (Nat × Chunk), es.Pairwise (·.1 < ·.1) ∧ cs = es.map (·.2) ∧
      ∀ key c, (key, c) ∈ es ↔ latest (chunk? key) past = some c
  | .stats, s => s = latest stats? past
  | .checkpoint name, pos => pos = latest (position? name) past
  | .putBuffer _, _ | .addChunk _ _, _ | .putStats _, _ | .putCheckpoint _ _, _ => True

theorem Fits.unique {r : Request} {a a' : r.Answer} (h : r.Fits past a) (h' : r.Fits past a') :
    a = a' := by
  cases r with
  | buffer => exact h.trans h'.symm
  | stats => exact h.trans h'.symm
  | checkpoint name => exact h.trans h'.symm
  | chunks =>
    obtain ⟨es, hes, rfl, hmem⟩ := h
    obtain ⟨es', hes', rfl, hmem'⟩ := h'
    have hnodup {es : List (Nat × Chunk)} (hes : es.Pairwise (·.1 < ·.1)) : es.Nodup :=
      hes.imp fun {e e'} hlt (heq : e = e') => Nat.lt_irrefl _ (heq ▸ hlt)
    have hperm : es.Perm es' := (List.perm_ext_iff_of_nodup (hnodup hes) (hnodup hes')).2
      fun e => (hmem e.1 e.2).trans (hmem' e.1 e.2).symm
    have heq : es = es' := hperm.eq_of_pairwise
      (fun _ _ _ _ hlt hlt' => absurd hlt' (Nat.lt_asymm hlt)) hes hes'
    rw [heq]
  | putBuffer b => rfl
  | addChunk key c => rfl
  | putStats s => rfl
  | putCheckpoint name pos => rfl

def Small : Request → Prop
  | .putBuffer b => b.Small
  | .addChunk _ c => c.Small
  | .putStats s => s.Small
  | .putCheckpoint _ pos => pos < 2 ^ 64
  | _ => True

instance : (r : Request) → Decidable r.Small
  | .putBuffer b => inferInstanceAs (Decidable b.Small)
  | .addChunk _ c => inferInstanceAs (Decidable c.Small)
  | .putStats s => inferInstanceAs (Decidable s.Small)
  | .putCheckpoint _ pos => inferInstanceAs (Decidable (pos < 2 ^ 64))
  | .buffer | .chunks | .stats | .checkpoint _ => inferInstanceAs (Decidable True)

def SmallAnswer : (r : Request) → r.Answer → Prop
  | .buffer, b => ∀ b', b = some b' → b'.Small
  | .chunks, cs => ∀ c ∈ cs, c.Small
  | .stats, s => ∀ s', s = some s' → s'.Small
  | .checkpoint _, pos => ∀ pos', pos = some pos' → pos' < 2 ^ 64
  | .putBuffer _, _ | .addChunk _ _, _ | .putStats _, _ | .putCheckpoint _ _, _ => True

theorem Fits.small {r : Request} {a : r.Answer} (h : r.Fits past a) (hs : ∀ r ∈ past, r.Small) :
    r.SmallAnswer a := by
  cases r with
  | buffer =>
    intro b hb
    obtain ⟨r, hr, hput⟩ := exists_of_latest (h.symm.trans hb)
    obtain rfl := eq_of_buffer? hput
    exact hs _ hr
  | stats =>
    intro s hb
    obtain ⟨r, hr, hput⟩ := exists_of_latest (h.symm.trans hb)
    obtain rfl := eq_of_stats? hput
    exact hs _ hr
  | checkpoint name =>
    intro pos hb
    obtain ⟨r, hr, hput⟩ := exists_of_latest (h.symm.trans hb)
    obtain rfl := eq_of_position? hput
    exact hs _ hr
  | chunks =>
    obtain ⟨es, -, rfl, hmem⟩ := h
    intro c hc
    obtain ⟨⟨key, c⟩, he, rfl⟩ := List.mem_map.1 hc
    obtain ⟨r, hr, hput⟩ := exists_of_latest ((hmem key c).1 he)
    obtain rfl := eq_of_chunk? hput
    exact hs _ hr
  | putBuffer b => trivial
  | addChunk key c => trivial
  | putStats s => trivial
  | putCheckpoint name pos => trivial

end Request

namespace Catalog

open Request

/-- A catalog is what some requests left. -/
structure Recalls (c : Catalog) (past : List Request) : Prop where
  buffer : c.buffer = latest buffer? past
  stats : c.stats = latest stats? past
  checkpoints : ∀ name, c.checkpoints.get? name = latest (position? name) past
  ascending : c.chunks.Ascending
  chunks : ∀ key, c.chunks.get? key = latest (chunk? key) past

namespace Recalls

variable {c c' : Catalog} {r : Request}

theorem empty : Recalls {} [] where
  buffer := rfl
  stats := rfl
  checkpoints _ := rfl
  ascending := .nil
  chunks _ := rfl

theorem concat (h : c.Recalls past) (hb : c'.buffer = r.buffer?.or c.buffer)
    (hs : c'.stats = r.stats?.or c.stats)
    (hp : ∀ name, c'.checkpoints.get? name = (r.position? name).or (c.checkpoints.get? name))
    (ha : c'.chunks.Ascending)
    (hc : ∀ key, c'.chunks.get? key = (r.chunk? key).or (c.chunks.get? key)) :
    c'.Recalls (past ++ [r]) where
  buffer := by rw [latest_concat, hb, h.buffer]
  stats := by rw [latest_concat, hs, h.stats]
  checkpoints name := by rw [latest_concat, hp, h.checkpoints]
  ascending := ha
  chunks key := by rw [latest_concat, hc, h.chunks]

theorem answer (h : c.Recalls past) {a : r.Answer} (ha : c.answer r = .ok (a, c')) :
    r.Fits past a ∧ c'.Recalls (past ++ [r]) := by
  have hread (hb : r.buffer? = none) (hs : r.stats? = none) (hp : ∀ name, r.position? name = none)
      (hc : ∀ key, r.chunk? key = none) : c.Recalls (past ++ [r]) :=
    h.concat (by rw [hb, Option.none_or]) (by rw [hs, Option.none_or])
      (fun name => by rw [hp, Option.none_or]) h.ascending (fun key => by rw [hc, Option.none_or])
  cases r <;> cases ha
  case buffer => exact ⟨h.buffer, hread rfl rfl (fun _ => rfl) fun _ => rfl⟩
  case stats => exact ⟨h.stats, hread rfl rfl (fun _ => rfl) fun _ => rfl⟩
  case checkpoint name => exact ⟨h.checkpoints name, hread rfl rfl (fun _ => rfl) fun _ => rfl⟩
  case chunks =>
    refine ⟨⟨c.chunks.entries, h.ascending, rfl, fun key chunk => ?_⟩,
      hread rfl rfl (fun _ => rfl) fun _ => rfl⟩
    rw [h.ascending.mem_iff, h.chunks]
  case putBuffer b =>
    exact ⟨trivial, h.concat rfl rfl (fun _ => rfl) h.ascending fun _ => rfl⟩
  case putStats s =>
    exact ⟨trivial, h.concat rfl rfl (fun _ => rfl) h.ascending fun _ => rfl⟩
  case addChunk key chunk =>
    refine ⟨trivial, h.concat rfl rfl (fun _ => rfl) (h.ascending.insert key chunk) fun key' => ?_⟩
    rw [PositionMap.get?_insert, chunk?]
    split <;> rfl
  case putCheckpoint name pos =>
    refine ⟨trivial, h.concat rfl rfl (fun name' => ?_) h.ascending fun _ => rfl⟩
    rw [Table.get?_insert, position?]
    split <;> rfl

end Recalls

theorem exists_answer (c : Catalog) (r : Request) : ∃ a c', c.answer r = .ok (a, c') := by
  cases r <;> exact ⟨_, _, rfl⟩

theorem readable_of_answer {c c' : Catalog} {r : Request} {a : r.Answer}
    (h : c.answer r = .ok (a, c')) (hs : r.SmallAnswer a) : r.Readable c := by
  cases r <;> cases h
  case checkpoint name => trivial
  all_goals exact hs

end Catalog

namespace Program

/-- A program that never crashes. The numbers that it puts have 64 bits as long as those have that
it is told. -/
def Proper : Program α → Prop
  | .done _ => True
  | .stop s => s ≠ .crash
  | .ask r next => r.Small ∧ ∀ a, r.SmallAnswer a → (next a).Proper

/-- How a program goes after some requests: which of its own are answered and how, what it ends
with, and which requests there were then. -/
inductive Goes : List Request → Program α → List Answered → Except Stop α → List Request → Prop
  | done (past : List Request) (a : α) : Goes past (.done a) [] (.ok a) past
  | stop (past : List Request) (s : Stop) : Goes past (.stop s) [] (.error s) past
  | ask {past past' : List Request} {r : Request} {next : r.Answer → Program α} {a : r.Answer}
      {answers : List Answered} {result : Except Stop α} (ha : r.Fits past a)
      (hnext : Goes (past ++ [r]) (next a) answers result past') :
      Goes past (.ask r next) (⟨r, a⟩ :: answers) result past'

theorem Goes.unique {p : Program α} {past'' : List Request} {answers answers' : List Answered}
    {result result' : Except Stop α} (h : p.Goes past answers result past')
    (h' : p.Goes past answers' result' past'') :
    answers = answers' ∧ result = result' ∧ past' = past'' := by
  induction h generalizing answers' with
  | done past a =>
    cases h'
    exact ⟨rfl, rfl, rfl⟩
  | stop past s =>
    cases h'
    exact ⟨rfl, rfl, rfl⟩
  | ask ha _ ih =>
    cases h' with
    | ask ha' hnext' =>
      obtain rfl := ha.unique ha'
      obtain ⟨rfl, rfl, rfl⟩ := ih hnext'
      exact ⟨rfl, rfl, rfl⟩

end Program

theorem Tables.goes_run {t : Tables} {c : Catalog} {p : Program α} (h : t.Represents c)
    (hc : c.Recalls past) (hs : ∀ r ∈ past, r.Small) (hp : p.Proper) :
    ∃ past', p.Goes past (t.run p).1 ((t.run p).2.map Prod.fst) past' ∧ (∀ r ∈ past', r.Small) ∧
      (t.run p).2 ≠ .error .crash ∧
      ∀ a t', (t.run p).2 = .ok (a, t') → ∃ c', t'.Represents c' ∧ c'.Recalls past' := by
  induction p generalizing t c past with
  | done a =>
    refine ⟨past, .done past a, hs, by simp [Tables.run], fun a' t' hrun => ?_⟩
    obtain ⟨-, rfl⟩ := Prod.mk.inj (Except.ok.inj hrun)
    exact ⟨c, h, hc⟩
  | stop s =>
    refine ⟨past, .stop past s, hs, fun hcrash => ?_, by simp [Tables.run]⟩
    exact hp (Except.error.inj hcrash)
  | ask r next ih =>
    obtain ⟨a, c₁, hanswer⟩ := c.exists_answer r
    have hsmall : r.SmallAnswer a := (hc.answer hanswer).1.small hs
    obtain ⟨a', t₁, hr⟩ := h.exists_answer fun _ => Catalog.readable_of_answer hanswer hsmall
    obtain ⟨c₁', hanswer', h₁⟩ := h.answer hr
    obtain ⟨rfl, rfl⟩ := Prod.mk.inj (Except.ok.inj (hanswer.symm.trans hanswer'))
    obtain ⟨hfits, hc₁⟩ := hc.answer hanswer
    have hs₁ : ∀ r' ∈ past ++ [r], r'.Small := by
      intro r' hr'
      rw [List.mem_append, List.mem_singleton] at hr'
      rcases hr' with hr' | rfl
      · exact hs r' hr'
      · exact hp.1
    obtain ⟨past', hgoes, hrest⟩ := ih a h₁ hc₁ hs₁ (hp.2 a hsmall)
    simp only [Tables.run, hr]
    exact ⟨past', .ask hfits hgoes, hrest⟩

/-- What an index is used for: units of work, until it is closed. -/
inductive Work (α : Type) where
  | read (p : Program α)
  | update (p : Program α)
  | close

namespace Work

def Proper : Work α → Prop
  | .read p | .update p => p.Proper
  | .close => True

abbrev Report (α : Type) := List Answered × Except Stop α

/-- What an index reports on some work after some requests, or after it was closed. -/
inductive Goes : Option (List Request) → List (Work α) → List (Report α) → Prop
  | nil (state : Option (List Request)) : Goes state [] []
  | read {past past' : List Request} {p : Program α} {answers : List Answered}
      {result : Except Stop α} {us : List (Work α)} {reports : List (Report α)}
      (hp : p.Goes past answers result past') (hrest : Goes (some past) us reports) :
      Goes (some past) (.read p :: us) ((answers, result) :: reports)
  | committed {past past' : List Request} {p : Program α} {answers : List Answered} {a : α}
      {us : List (Work α)} {reports : List (Report α)} (hp : p.Goes past answers (.ok a) past')
      (hrest : Goes (some past') us reports) :
      Goes (some past) (.update p :: us) ((answers, .ok a) :: reports)
  | undone {past past' : List Request} {p : Program α} {answers : List Answered} {stop : Stop}
      {us : List (Work α)} {reports : List (Report α)}
      (hp : p.Goes past answers (.error stop) past') (hrest : Goes (some past) us reports) :
      Goes (some past) (.update p :: us) ((answers, .error stop) :: reports)
  | close {state : Option (List Request)} {us : List (Work α)} {reports : List (Report α)}
      (hrest : Goes none us reports) : Goes state (.close :: us) reports
  | refusedRead {p : Program α} {us : List (Work α)} {reports : List (Report α)}
      (hrest : Goes none us reports) :
      Goes none (.read p :: us) (([], .error (.error .closed)) :: reports)
  | refusedUpdate {p : Program α} {us : List (Work α)} {reports : List (Report α)}
      (hrest : Goes none us reports) :
      Goes none (.update p :: us) (([], .error (.error .closed)) :: reports)

theorem Goes.unique {state : Option (List Request)} {us : List (Work α)}
    {reports reports' : List (Report α)} (h : Goes state us reports) (h' : Goes state us reports') :
    reports = reports' := by
  induction h generalizing reports' with
  | nil state =>
    cases h'
    rfl
  | read hp _ ih =>
    cases h' with
    | read hp' hrest' =>
      obtain ⟨rfl, rfl, -⟩ := hp.unique hp'
      rw [ih hrest']
  | committed hp _ ih =>
    cases h' with
    | committed hp' hrest' =>
      obtain ⟨rfl, hresult, rfl⟩ := hp.unique hp'
      rw [hresult, ih hrest']
    | undone hp' hrest' => cases (hp.unique hp').2.1
  | undone hp _ ih =>
    cases h' with
    | committed hp' hrest' => cases (hp.unique hp').2.1
    | undone hp' hrest' =>
      obtain ⟨rfl, hresult, -⟩ := hp.unique hp'
      rw [hresult, ih hrest']
  | close _ ih =>
    cases h' with
    | close hrest' => exact ih hrest'
  | refusedRead _ ih =>
    cases h' with
    | refusedRead hrest' => rw [ih hrest']
  | refusedUpdate _ ih =>
    cases h' with
    | refusedUpdate hrest' => rw [ih hrest']

end Work

variable {q : Place} {id : StoreId} {w : World} {p : Program α} {us : List (Work α)}

namespace Store

def report (id : StoreId) (hook : Hook) (p : Program α) (w : World) : Work.Report α × World :=
  match transact id hook p w with
  | (answers, .ok a w) => ((answers, .ok a), w)
  | (answers, .error stop w) => ((answers, .error stop), w)

/-- An index that can be used, with what some requests left in it. -/
structure Serves (q : Place) (id : StoreId) (past : List Request) (w : World) : Prop where
  keeps : ∃ c, Keeps q id c w ∧ c.Recalls past
  small : ∀ r ∈ past, r.Small
  willing : ∀ s, w.stores[id]? = some s → s.failCommits = false
  sound : w.disk.Sound
  calm : w.Calm

namespace Serves

theorem idle {w' : World} (h : Serves q id past w) (hi : World.Idle w w') :
    Serves q id past w' where
  keeps := by
    obtain ⟨c, hk, hc⟩ := h.keeps
    exact ⟨c, hk.idle hi, hc⟩
  small := h.small
  willing := hi.stores ▸ h.willing
  sound := hi.disk ▸ h.sound
  calm := hi.calm h.calm

theorem transact (h : Serves q id past w) (hp : p.Proper) (hook : Hook) :
    ∃ answers past' w', Serves q id past w' ∧ (∀ r ∈ past', r.Small) ∧
      ((∃ stop, p.Goes past answers (.error stop) past' ∧
          Store.transact id hook p w = (answers, .error stop w')) ∨
        ∃ a t c, p.Goes past answers (.ok a) past' ∧ t.Represents c ∧ c.Recalls past' ∧
          (∀ s, w'.stores[id]? = some s → t.inFile = s.medium.inFile) ∧
          Store.transact id hook p w = (answers,
            (if hook = .update then commit id t *> pure a else pure a : Op α) w')) := by
  obtain ⟨c, hk, hc⟩ := h.keeps
  have hbegin := ends_begin hk.offers hook
  cases hx : begin id hook w with
  | error stop w' => exact absurd h.calm (hbegin.error hx).2.2
  | ok t w' =>
    obtain ⟨hi, ht, hform⟩ := hbegin.ok hx
    obtain ⟨past', hgoes, hsmall, hcrash, hok⟩ := Tables.goes_run ht hc h.small hp
    refine ⟨(t.run p).1, past', w', h.idle hi, hsmall, ?_⟩
    cases hrun : t.run p with
    | mk answers result =>
      rw [hrun] at hgoes hcrash hok
      cases result with
      | error stop =>
        refine .inl ⟨stop, hgoes, ?_⟩
        obtain ⟨s, hs, -⟩ := hk.idle hi
        cases stop with
        | crash => exact absurd rfl hcrash
        | error e =>
          simp only [Store.transact, hx, hrun, abandon, bind, EStateM.bind, lookup, hs]
          rfl
      | ok at' =>
        obtain ⟨a, t'⟩ := at'
        obtain ⟨c', ht', hc'⟩ := hok a t' rfl
        refine .inr ⟨a, t', c', hgoes, ht', hc', fun s hs => ?_, ?_⟩
        · rw [Tables.inFile_run (congrArg Prod.snd hrun), hform s (hi.stores ▸ hs)]
        · simp only [Store.transact, hx, hrun]

theorem commit {t : Tables} {c : Catalog} (h : Serves q id past w) (ht : t.Represents c)
    (hc : c.Recalls past') (hs : ∀ r ∈ past', r.Small)
    (hf : ∀ s, w.stores[id]? = some s → t.inFile = s.medium.inFile) :
    ∃ w', Store.commit id t w = .ok () w' ∧ Serves q id past' w' := by
  obtain ⟨c₀, hk, -⟩ := h.keeps
  have hk' := hk
  obtain ⟨s, hst, -⟩ := hk'
  have hends := ends_commit h.sound hk hst ht (hf s hst)
  cases hx : Store.commit id t w with
  | error stop w' =>
    have hfail := (hends.error hx).2.2
    rw [h.willing s hst] at hfail
    cases hfail
  | ok u w' =>
    have hcommits := hends.ok hx
    obtain ⟨F, -, -, hF⟩ := hcommits.disk
    refine ⟨w', rfl, ⟨c, hcommits.keeps, hc⟩, hs, fun s' hs' => ?_, hF.sound h.sound,
      hcommits.calm h.calm⟩
    rw [hcommits.stores s hst, List.getElem?_set_self (List.getElem?_eq_some_iff.1 hst).1] at hs'
    cases hs'
    exact h.willing s hst

theorem read (h : Serves q id past w) (hp : p.Proper) :
    ∃ past' w' answers result, report id .read p w = ((answers, result), w') ∧
      p.Goes past answers result past' ∧ Serves q id past w' := by
  obtain ⟨answers, past', w', h', -, ⟨stop, hgoes, heq⟩ | ⟨a, t, c, hgoes, -, -, -, heq⟩⟩ :=
    h.transact hp .read
  · exact ⟨past', w', answers, .error stop, by rw [report, heq], hgoes, h'⟩
  · exact ⟨past', w', answers, .ok a, by rw [report, heq]; rfl, hgoes, h'⟩

theorem update (h : Serves q id past w) (hp : p.Proper) :
    ∃ past' w' answers,
      (∃ a, report id .update p w = ((answers, .ok a), w') ∧ p.Goes past answers (.ok a) past' ∧
        Serves q id past' w') ∨
      ∃ stop, report id .update p w = ((answers, .error stop), w') ∧
        p.Goes past answers (.error stop) past' ∧ Serves q id past w' := by
  obtain ⟨answers, past', w', h', hs, ⟨stop, hgoes, heq⟩ | ⟨a, t, c, hgoes, ht, hc, hf, heq⟩⟩ :=
    h.transact hp .update
  · exact ⟨past', w', answers, .inr ⟨stop, by rw [report, heq], hgoes, h'⟩⟩
  · obtain ⟨w'', hcommit, h''⟩ := h'.commit ht hc hs hf
    refine ⟨past', w'', answers, .inl ⟨a, ?_, hgoes, h''⟩⟩
    rw [report, heq]
    simp only [if_true, SeqRight.seqRight, EStateM.seqRight, hcommit, pure, EStateM.pure]

end Serves

theorem report_of_shut (h : Shut id w) (hc : w.Calm) (hook : Hook) (p : Program α) :
    ∃ w', report id hook p w = (([], .error (.error .closed)), w') ∧ Shut id w' ∧ w'.Calm := by
  have hbegin := ends_begin_of_shut h hc hook
  cases hx : begin id hook w with
  | ok t w' => exact (hbegin.ok hx).elim
  | error stop w' =>
    obtain ⟨rfl, hi⟩ := hbegin.error hx
    exact ⟨w', by simp only [report, transact, hx], (shut_idle hi).2 h, hi.calm hc⟩

theorem shut_close {s : Store} (hs : w.stores[id]? = some s) :
    ∃ w', close id w = .ok () w' ∧ Shut id w' ∧ (w.Calm → w'.Calm) := by
  have hlt := (List.getElem?_eq_some_iff.1 hs).1
  refine ⟨_, rfl, ?_⟩
  simp only [hs]
  exact ⟨⟨{ s with closed := true }, List.getElem?_set_self hlt, rfl⟩, fun hc => hc⟩

end Store

namespace Work

def reports (id : StoreId) : List (Work α) → World → List (Report α)
  | [], _ => []
  | .read p :: us, w => (Store.report id .read p w).1 :: reports id us (Store.report id .read p w).2
  | .update p :: us, w =>
    (Store.report id .update p w).1 :: reports id us (Store.report id .update p w).2
  | .close :: us, w =>
    match Store.close id w with
    | .ok _ w | .error _ w => reports id us w

theorem goes_of_shut (h : Store.Shut id w) (hc : w.Calm) (us : List (Work α)) :
    Goes none us (reports id us w) := by
  induction us generalizing w with
  | nil => exact .nil none
  | cons u us ih =>
    cases u with
    | read p =>
      obtain ⟨w', heq, h', hc'⟩ := Store.report_of_shut h hc .read p
      rw [reports, heq]
      exact .refusedRead (ih h' hc')
    | update p =>
      obtain ⟨w', heq, h', hc'⟩ := Store.report_of_shut h hc .update p
      rw [reports, heq]
      exact .refusedUpdate (ih h' hc')
    | close =>
      obtain ⟨s, hs, -⟩ := h
      obtain ⟨w', heq, h', hc'⟩ := Store.shut_close hs
      rw [reports, heq]
      exact .close (ih h' (hc' hc))

theorem goes (h : Store.Serves q id past w) (hus : ∀ u ∈ us, u.Proper) :
    Goes (some past) us (reports id us w) := by
  induction us generalizing past w with
  | nil => exact .nil _
  | cons u us ih =>
    have hu := hus u List.mem_cons_self
    have hrest (u' : Work α) (hu' : u' ∈ us) : u'.Proper := hus u' (List.mem_cons_of_mem _ hu')
    cases u with
    | read p =>
      obtain ⟨past', w', answers, result, heq, hgoes, h'⟩ := h.read hu
      rw [reports, heq]
      exact .read hgoes (ih h' hrest)
    | update p =>
      obtain ⟨past', w', answers, ⟨a, heq, hgoes, h'⟩ | ⟨stop, heq, hgoes, h'⟩⟩ := h.update hu
      · rw [reports, heq]
        exact .committed hgoes (ih h' hrest)
      · rw [reports, heq]
        exact .undone hgoes (ih h' hrest)
    | close =>
      obtain ⟨c, ⟨s, hs, -⟩, -⟩ := h.keeps
      obtain ⟨w', heq, h', hc'⟩ := Store.shut_close hs
      rw [reports, heq]
      exact .close (goes_of_shut h' (hc' h.calm) us)

end Work

namespace Store

/-- The ways to a new index: in memory, or in the file of a folder that has no index yet, or an
empty one. -/
inductive New : StoreId → World → Prop
  | memory {w w' : World} {id : StoreId} (hs : w.disk.Sound) (hc : w.Calm)
      (hop : openMemory w = .ok id w') : New id w'
  | file {cfg : Config} {w w' : World} {id : StoreId} (hs : w.disk.Sound) (hc : w.Calm)
      (hv : ∀ q, (w.disk.createFolders cfg.path.moves).2.enter cfg.path = .ok q →
        Vacant q (w.disk.createFolders cfg.path.moves).2)
      (hop : openFile cfg.path w = .ok id w') : New id w'

theorem New.serves (h : New id w) : ∃ q, Serves q id [] w := by
  cases h with
  | memory hs hc hop =>
    cases hop
    refine ⟨[], ⟨{}, ?_, .empty⟩, by simp, fun s hs => ?_, hs, hc⟩
    · exact ⟨{ medium := .memory {} }, List.getElem?_concat_length, rfl, rfl, rfl⟩
    · rw [List.getElem?_concat_length, Option.some.injEq] at hs
      rw [← hs]
  | file hs hc hv hop =>
    obtain ⟨q, hopened⟩ := (ends_openFile_new hs hv).ok hop
    exact ⟨q, ⟨{}, hopened.keeps, .empty⟩, by simp, hopened.willing, hopened.sound,
      hopened.calm hc⟩

/-- New indexes report the same on the same work, wherever they are, and it is what follows from the
requests that they granted. -/
theorem New.reports_agree {id' : StoreId} {w' : World} (h : New id w) (h' : New id' w')
    (hus : ∀ u ∈ us, u.Proper) :
    Work.reports id us w = Work.reports id' us w' ∧
      Work.Goes (some []) us (Work.reports id us w) := by
  obtain ⟨q, hserves⟩ := h.serves
  obtain ⟨q', hserves'⟩ := h'.serves
  have hgoes := Work.goes hserves hus
  have hgoes' := Work.goes hserves' hus
  exact ⟨hgoes.unique hgoes', hgoes⟩

end Store

def Program.survey : Program (List Nat × Option Nat) := do
  let chunks ← Program.request .chunks
  let pos ← Program.request (.checkpoint "kept")
  return (chunks.map Chunk.start, pos)

/-- Chunks are put in the wrong order and listed in the same unit of work. Another one gives up
after it put a position, and the index is closed between the last two. -/
def surveyed : List (Work (List Nat × Option Nat)) :=
  [.update (do
      Program.request (.addChunk 5 ⟨"b", 5, 2, 2, 1⟩)
      Program.request (.putCheckpoint "kept" 7)
      Program.request (.addChunk 2 ⟨"a", 2, 3, 3, 1⟩)
      Program.survey),
    .update (do
      Program.request (.putCheckpoint "kept" 9)
      Program.stop (.error (.transform "no"))),
    .read Program.survey,
    .close,
    .read Program.survey]

theorem reports_agree_surveyed :
    ∃ id w id' w', Store.New id w ∧ Store.New id' w' ∧
      (w.stores[id]?.map (·.medium.inFile), w'.stores[id']?.map (·.medium.inFile)) =
        (some false, some true) ∧
      Work.reports id surveyed w = Work.reports id' surveyed w' ∧
      Work.Goes (some []) surveyed (Work.reports id surveyed w) ∧
      (Work.reports id surveyed w).map Prod.snd = [.ok ([2, 5], some 7),
        .error (.error (.transform "no")), .ok ([2, 5], some 7), .error (.error .closed)] := by
  have hsurvey : Program.survey.Proper :=
    ⟨trivial, fun _ _ => ⟨trivial, fun _ _ => trivial⟩⟩
  have hproper : ∀ u ∈ surveyed, u.Proper := by
    intro u hu
    simp only [surveyed, List.mem_cons, List.not_mem_nil, or_false] at hu
    rcases hu with rfl | rfl | rfl | rfl | rfl
    · exact ⟨by decide, fun _ _ => ⟨by decide, fun _ _ => ⟨by decide, fun _ _ => hsurvey⟩⟩⟩
    · exact ⟨by decide, fun _ _ hstop => by cases hstop⟩
    · exact hsurvey
    · trivial
    · exact hsurvey
  have hmemory : Store.New 1 _ := .memory World.sound_blank rfl rfl
  have hopens : (Store.openFile Config.plain.path).passes
      (fun id w => w.stores[id]?.map (·.medium.inFile) == some true) .blank = true := by
    decide +kernel
  obtain ⟨id', w', hop, hform⟩ := Op.exists_of_passes hopens
  have hfile : Store.New id' w' := by
    refine .file World.sound_blank rfl (fun q hq f hf => ?_) hop
    obtain rfl : [] = q := Except.ok.inj ((by decide +kernel : _ = _).trans hq)
    have hnone : (World.blank.disk.createFolders Config.plain.path.moves).2.names.get?
      ([] ++ [indexFileName]) = none := by decide +kernel
    cases hnone.symm.trans hf
  obtain ⟨heq, hgoes⟩ := hmemory.reports_agree hfile hproper
  exact ⟨1, _, id', w', hmemory, hfile, Prod.ext rfl (beq_iff_eq.1 hform), heq, hgoes,
    by decide +kernel⟩

end RecordLog
