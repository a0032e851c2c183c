import Mathlib
import RecordLog.Proofs.StoredValues

/-!
# The two forms of tables

Tables of stored values stand for a catalog. Whatever they answer is what the catalog answers, and
what they become stands for what the catalog becomes; they answer everything as long as the numbers
in the catalog have 64 bits, and what only puts values they answer in any case.
-/

namespace RecordLog

variable {α : Type}

structure StoredTables.Encodes (t : StoredTables) (c : Catalog) : Prop where
  buffer : t.singles.get? bufferKey = c.buffer.map Stored.ofBuffer
  stats : t.singles.get? statsKey = c.stats.map Stored.ofStats
  chunks : t.chunks = c.chunks.map Stored.ofChunk
  checkpoints : t.checkpoints = c.checkpoints

/-- Tables of either form that stand for a catalog. -/
def Tables.Represents (c : Catalog) : Tables → Prop
  | .plain c' => c' = c
  | .stored t => t.Encodes c

def Tables.inFile : Tables → Bool
  | .plain _ => false
  | .stored _ => true

structure Catalog.Small (c : Catalog) : Prop where
  buffer : ∀ b, c.buffer = some b → b.Small
  stats : ∀ s, c.stats = some s → s.Small
  chunks : ∀ chunk ∈ c.chunks.values, chunk.Small

def Request.Readable (c : Catalog) : Request → Prop
  | .buffer => ∀ b, c.buffer = some b → b.Small
  | .stats => ∀ s, c.stats = some s → s.Small
  | .chunks => ∀ chunk ∈ c.chunks.values, chunk.Small
  | _ => True

namespace Stored

theorem mapM_decode_eq {cs : List Chunk} (h : ∀ c ∈ cs, c.Small) :
    (cs.map ofChunk).mapM (decode chunk) = .ok cs := by
  induction cs with
  | nil => rfl
  | cons c cs ih =>
    have hc := (form_chunk c).decode_eq (h c List.mem_cons_self)
    have hcs := ih fun d hd => h d (List.mem_cons_of_mem _ hd)
    simp only [List.map_cons, List.mapM_cons, hc, hcs, bind, Except.bind, pure, Except.pure]

theorem eq_of_mapM_decode {cs ds : List Chunk} (h : (cs.map ofChunk).mapM (decode chunk) = .ok ds) :
    ds = cs := by
  induction cs generalizing ds with
  | nil => exact (Except.ok.inj h).symm
  | cons c cs ih =>
    simp only [List.map_cons, List.mapM_cons, bind, Except.bind] at h
    cases hc : decode chunk (ofChunk c) with
    | error e => simp [hc] at h
    | ok d =>
      cases hcs : (cs.map ofChunk).mapM (decode chunk) with
      | error e => simp [hc, hcs] at h
      | ok es =>
        simp only [hc, hcs, pure, Except.pure, Except.ok.injEq] at h
        rw [← h, (form_chunk c).eq_of_decode hc, ih hcs]

end Stored

namespace StoredTables

variable {t : StoredTables} {c : Catalog}

theorem statsKey_ne_bufferKey : statsKey ≠ bufferKey := by decide

theorem single_eq {key : String} {reader : Stored.Reader α} {b : Option α}
    {of : α → Bytes} {small : α → Prop} (form : ∀ a, Stored.Form reader (of a) a (small a))
    (h : t.singles.get? key = b.map of) (hs : ∀ a, b = some a → small a) :
    t.single key reader = .ok b := by
  cases b with
  | none => simp [single, h]
  | some a => simp [single, h, (form a).decode_eq (hs a rfl), Except.map]

theorem eq_of_single {key : String} {reader : Stored.Reader α} {b b' : Option α}
    {of : α → Bytes} {small : α → Prop} (form : ∀ a, Stored.Form reader (of a) a (small a))
    (h : t.singles.get? key = b.map of) (hb : t.single key reader = .ok b') : b' = b := by
  cases b with
  | none => simpa [single, h, eq_comm] using hb
  | some a =>
    simp only [single, h, Option.map_some] at hb
    cases hd : Stored.decode reader (of a) with
    | error e => simp [hd, Except.map] at hb
    | ok a' =>
      simp only [hd, Except.map, Except.ok.injEq] at hb
      rw [← hb, (form a).eq_of_decode hd]

namespace Encodes

theorem values_chunks (h : t.Encodes c) : t.chunks.values = c.chunks.values.map Stored.ofChunk := by
  simp [h.chunks, PositionMap.map, PositionMap.values]

theorem putBuffer (h : t.Encodes c) (b : BufferState) :
    ({ t with singles := t.singles.insert bufferKey (Stored.ofBuffer b) } : StoredTables).Encodes
      { c with buffer := some b } where
  buffer := by rw [Table.get?_insert, if_pos rfl]; rfl
  stats := by rw [Table.get?_insert, if_neg statsKey_ne_bufferKey.symm]; exact h.stats
  chunks := h.chunks
  checkpoints := h.checkpoints

theorem putStats (h : t.Encodes c) (s : Stats) :
    ({ t with singles := t.singles.insert statsKey (Stored.ofStats s) } : StoredTables).Encodes
      { c with stats := some s } where
  buffer := by rw [Table.get?_insert, if_neg statsKey_ne_bufferKey]; exact h.buffer
  stats := by rw [Table.get?_insert, if_pos rfl]; rfl
  chunks := h.chunks
  checkpoints := h.checkpoints

theorem addChunk (h : t.Encodes c) (key : Nat) (chunk : Chunk) :
    ({ t with chunks := t.chunks.insert key (Stored.ofChunk chunk) } : StoredTables).Encodes
      { c with chunks := c.chunks.insert key chunk } where
  buffer := h.buffer
  stats := h.stats
  chunks := by rw [PositionMap.map_insert, h.chunks]
  checkpoints := h.checkpoints

theorem putCheckpoint (h : t.Encodes c) (name : String) (pos : Nat) :
    ({ t with checkpoints := t.checkpoints.insert name pos } : StoredTables).Encodes
      { c with checkpoints := c.checkpoints.insert name pos } where
  buffer := h.buffer
  stats := h.stats
  chunks := h.chunks
  checkpoints := by rw [h.checkpoints]

end Encodes

end StoredTables

theorem Tables.eq_of_map {x : Except Error α} {t : StoredTables} {a : α} {t' : Tables}
    (h : (x.map (·, t)).map (fun (a, t) => (a, Tables.stored t)) = .ok (a, t')) :
    x = .ok a ∧ t' = .stored t := by
  cases x with
  | error e => cases h
  | ok b =>
    cases h
    exact ⟨rfl, rfl⟩

namespace Tables.Represents

variable {t t' : Tables} {c : Catalog} {r : Request}

theorem answer (h : t.Represents c) {a : r.Answer} (ha : t.answer r = .ok (a, t')) :
    ∃ c', c.answer r = .ok (a, c') ∧ t'.Represents c' := by
  cases t with
  | plain c₀ =>
    obtain rfl : c₀ = c := h
    cases hc : c₀.answer r with
    | error e => simp [Tables.answer, hc, Except.map] at ha
    | ok p =>
      simp only [Tables.answer, hc, Except.map, Except.ok.injEq, Prod.mk.injEq] at ha
      obtain ⟨rfl, rfl⟩ := ha
      exact ⟨p.2, rfl, rfl⟩
  | stored t =>
    have h : t.Encodes c := h
    cases r with
    | buffer =>
      obtain ⟨hs, rfl⟩ := Tables.eq_of_map ha
      rw [StoredTables.eq_of_single Stored.form_buffer h.buffer hs]
      exact ⟨c, rfl, h⟩
    | chunks =>
      obtain ⟨hs, rfl⟩ := Tables.eq_of_map ha
      rw [h.values_chunks] at hs
      rw [Stored.eq_of_mapM_decode hs]
      exact ⟨c, rfl, h⟩
    | stats =>
      obtain ⟨hs, rfl⟩ := Tables.eq_of_map ha
      rw [StoredTables.eq_of_single Stored.form_stats h.stats hs]
      exact ⟨c, rfl, h⟩
    | checkpoint name =>
      obtain ⟨rfl, rfl⟩ := Prod.mk.inj (Except.ok.inj ha)
      rw [h.checkpoints]
      exact ⟨c, rfl, h⟩
    | putBuffer b =>
      obtain ⟨rfl, rfl⟩ := Prod.mk.inj (Except.ok.inj ha)
      exact ⟨_, rfl, h.putBuffer b⟩
    | addChunk key chunk =>
      obtain ⟨rfl, rfl⟩ := Prod.mk.inj (Except.ok.inj ha)
      exact ⟨_, rfl, h.addChunk key chunk⟩
    | putStats s =>
      obtain ⟨rfl, rfl⟩ := Prod.mk.inj (Except.ok.inj ha)
      exact ⟨_, rfl, h.putStats s⟩
    | putCheckpoint name pos =>
      obtain ⟨rfl, rfl⟩ := Prod.mk.inj (Except.ok.inj ha)
      exact ⟨_, rfl, h.putCheckpoint name pos⟩

theorem exists_answer (h : t.Represents c) (hr : t.inFile = true → r.Readable c) :
    ∃ a t', t.answer r = .ok (a, t') := by
  cases t with
  | plain c₀ => cases r <;> exact ⟨_, _, rfl⟩
  | stored t =>
    have h : t.Encodes c := h
    replace hr := hr rfl
    cases r with
    | buffer =>
      have := StoredTables.single_eq Stored.form_buffer h.buffer hr
      exact ⟨c.buffer, .stored t, by simp [Tables.answer, StoredTables.answer, this, Except.map]⟩
    | chunks =>
      have := Stored.mapM_decode_eq hr
      rw [← h.values_chunks] at this
      exact ⟨c.chunks.values, .stored t,
        by simp [Tables.answer, StoredTables.answer, this, Except.map]⟩
    | stats =>
      have := StoredTables.single_eq Stored.form_stats h.stats hr
      exact ⟨c.stats, .stored t, by simp [Tables.answer, StoredTables.answer, this, Except.map]⟩
    | checkpoint name => exact ⟨_, _, rfl⟩
    | putBuffer b => exact ⟨_, _, rfl⟩
    | addChunk key chunk => exact ⟨_, _, rfl⟩
    | putStats s => exact ⟨_, _, rfl⟩
    | putCheckpoint name pos => exact ⟨_, _, rfl⟩

end Tables.Represents

theorem Tables.inFile_answer {t t' : Tables} {r : Request} {a : r.Answer}
    (h : t.answer r = .ok (a, t')) : t'.inFile = t.inFile := by
  cases t with
  | plain c =>
    cases hc : c.answer r with
    | error e => simp [Tables.answer, hc, Except.map] at h
    | ok p =>
      simp only [Tables.answer, hc, Except.map, Except.ok.injEq, Prod.mk.injEq] at h
      rw [← h.2]
      rfl
  | stored t =>
    cases hc : t.answer r with
    | error e => simp [Tables.answer, hc, Except.map] at h
    | ok p =>
      simp only [Tables.answer, hc, Except.map, Except.ok.injEq, Prod.mk.injEq] at h
      rw [← h.2]
      rfl

namespace Program

def outcome? (c : Catalog) : Program α → Option (α × Catalog)
  | .done a => some (a, c)
  | .stop _ => none
  | .ask r next =>
    match c.answer r with
    | .ok (a, c) => (next a).outcome? c
    | .error _ => none

/-- A program that never stops of its own, and reads no value too large from stored tables. -/
def Smooth (inFile : Bool) (c : Catalog) : Program α → Prop
  | .done _ => True
  | .stop _ => False
  | .ask r next => (inFile = true → r.Readable c) ∧
      ∀ a c', c.answer r = .ok (a, c') → (next a).Smooth inFile c'

end Program

theorem Tables.run_of_represents {t t' : Tables} {c : Catalog} {p : Program α} {a : α}
    (h : t.Represents c) (hp : (t.run p).2 = .ok (a, t')) :
    ∃ c', p.outcome? c = some (a, c') ∧ t'.Represents c' := by
  induction p generalizing t c with
  | done b =>
    obtain ⟨rfl, rfl⟩ := Prod.mk.inj (Except.ok.inj hp)
    exact ⟨c, rfl, h⟩
  | stop s => simp [Tables.run] at hp
  | ask r next ih =>
    cases hr : t.answer r with
    | error e => simp [Tables.run, hr] at hp
    | ok x =>
      obtain ⟨b, t₁⟩ := x
      obtain ⟨c₁, hc, h₁⟩ := h.answer hr
      simp only [Tables.run, hr] at hp
      obtain ⟨c', hn, h'⟩ := ih b h₁ hp
      exact ⟨c', by simp only [Program.outcome?, hc, hn], h'⟩

theorem Tables.inFile_run {t t' : Tables} {p : Program α} {a : α}
    (h : (t.run p).2 = .ok (a, t')) : t'.inFile = t.inFile := by
  induction p generalizing t with
  | done b =>
    obtain ⟨-, rfl⟩ := Prod.mk.inj (Except.ok.inj h)
    rfl
  | stop s => simp [Tables.run] at h
  | ask r next ih =>
    cases hr : t.answer r with
    | error e => simp [Tables.run, hr] at h
    | ok x =>
      simp only [Tables.run, hr] at h
      rw [ih _ h, Tables.inFile_answer hr]

theorem Tables.run_of_smooth {t : Tables} {c : Catalog} {p : Program α} (h : t.Represents c)
    (hp : p.Smooth t.inFile c) : ∃ a t', (t.run p).2 = .ok (a, t') := by
  induction p generalizing t c with
  | done b => exact ⟨b, t, rfl⟩
  | stop s => exact hp.elim
  | ask r next ih =>
    obtain ⟨b, t₁, hr⟩ := h.exists_answer hp.1
    obtain ⟨c₁, hc, h₁⟩ := h.answer hr
    obtain ⟨a, t', hn⟩ := ih b h₁ (Tables.inFile_answer hr ▸ hp.2 b c₁ hc)
    exact ⟨a, t', by simp only [Tables.run, hr, hn]⟩

end RecordLog
