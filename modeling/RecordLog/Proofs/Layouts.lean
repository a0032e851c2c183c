import Mathlib
import RecordLog.Proofs.Refinement
import RecordLog.Proofs.Turns

/-!
# A log looks the same in every layout

What a log tells and shows depends on what was asked of it and on nothing else: not on the size of
its segments, its transforms or the place of its index, and not on seals that nobody asked for. A run
of a log in a `Layout` replies what the list of payloads replies that was appended so far, so two runs
agree whenever they were asked the same.
-/

namespace RecordLog

open Record Segment

/-- What is asked of a log by somebody who never looks at its files. -/
inductive Wish where
  | append (data : Bytes) (h : Writable data)
  | checkpoint
  /-- A scan from the position that was told at a turn, or else from the start. -/
  | scan (turn : Nat)
  /-- The writer goes and another one takes its place. -/
  | reopen

inductive Response where
  | position (pos : Nat)
  /-- The payload of each record, where it starts and where the next one does, and what comes behind
  the last. -/
  | records (shown : List (Bytes × Nat × Nat)) (last : Item)
  | opened
  deriving DecidableEq

/-- Settings of a log, and whether its index outlasts the writer or is in the folder and given back
with the writer. -/
inductive Layout where
  | kept (cfg : Config) (id : StoreId)
  | folder (cfg : Config)

/-- A log that is in use: its writer, the world, and the positions that were told, in their order. -/
structure Usage where
  writer : Writer
  world : World
  told : List Nat

def Reader.readThrough (r : Reader) (start : Nat) (w : World) : List Record × Item × World :=
  match r.scan start w with
  | .error (.error e) w => ([], .error e, w)
  | .error .crash w => ([], .crash, w)
  | .ok scan w =>
    let (records, last, _, w) := scan.collect w
    (records, last, w)

namespace Usage

/-- Asks the writer for something, with nothing made to fail. Nothing goes on after an error. -/
def ask (u : Usage) (a : Action) : Option (Option Nat × Usage) :=
  match Step.take ⟨a, {}⟩ (u.writer, u.world) with
  | (.ok pos, (writer, world)) => some (pos, ⟨writer, world, u.told ++ pos.toList⟩)
  | (.error _, _) => none

end Usage

namespace Layout

def config : Layout → Config
  | kept cfg _ => cfg
  | folder cfg => cfg

def opening : Layout → Op Writer
  | kept cfg id => Writer.resume cfg id
  | folder cfg => Writer.openFolder cfg

def release (writer : Writer) : Layout → Op Unit
  | kept _ _ => pure ()
  | folder _ => writer.close

def enter (y : Layout) (told : List Nat) (w : World) : Option Usage :=
  match y.opening w with
  | .ok writer w => some ⟨writer, w.under writer.store {}, told⟩
  | .error _ _ => none

end Layout

namespace Wish

/-- Grants a wish. Only a scan goes on after an error. -/
def grant (y : Layout) (u : Usage) : Wish → Option (Response × Usage)
  | append data h => do
    let (pos, u) ← u.ask (.append data h)
    return (.position (← pos), u)
  | checkpoint => do
    let (pos, u) ← u.ask .checkpoint
    return (.position (← pos), u)
  | scan turn =>
    let (records, last, w) := u.writer.reader.readThrough (u.told.getD turn 0) u.world
    some (.records (records.map fun r => (r.data, r.start, r.next)) last, { u with world := w })
  | reopen =>
    match y.release u.writer u.world with
    | .ok _ w => (y.enter u.told w).map (.opened, ·)
    | .error _ _ => none

/-- What is replied by a list of payloads and the positions that were told. -/
def reply : Wish → List Bytes × List Nat → Response × (List Bytes × List Nat)
  | append data _, (ps, told) =>
    let stop := extent (ps ++ [data])
    (.position stop, (ps ++ [data], told ++ [stop]))
  | checkpoint, (ps, told) => (.position (extent ps), (ps, told ++ [extent ps]))
  | scan turn, (ps, told) =>
    let shown := (line 0 0 ps).filter (told.getD turn 0 ≤ ·.start)
    (.records (shown.map fun r => (r.data, r.start, r.next)) .done, (ps, told))
  | reopen, s => (.opened, s)

def replies : List Wish → List Bytes × List Nat → List Response
  | [], _ => []
  | wish :: wishes, s => (wish.reply s).1 :: replies wishes (wish.reply s).2

/-- Whether all that was appended is durable after a wish, if it is `saved` before. -/
def keeps (saved : Bool) : Wish → Bool
  | append _ _ => false
  | checkpoint => true
  | _ => saved

/-- Whether the log is reopened only where all that was appended is durable. -/
def orderly : (saved : Bool) → List Wish → Bool
  | _, [] => true
  | saved, reopen :: wishes => saved && orderly saved wishes
  | saved, wish :: wishes => orderly (wish.keeps saved) wishes

end Wish

namespace Layout

/-- Does what a script says: grants wishes, and seals the live segment where there is none. -/
def serve (y : Layout) : List (Option Wish) → Usage → Option (List Response × Usage)
  | [], u => some ([], u)
  | none :: script, u => do
    let (_, u) ← u.ask .sealLive
    y.serve script u
  | some wish :: script, u => do
    let (reply, u) ← wish.grant y u
    let (replies, u) ← y.serve script u
    return (reply :: replies, u)

def play (y : Layout) (script : List (Option Wish)) (w : World) : Option (List Response × Usage) := do
  y.serve script (← y.enter [] w)

def Unused (w : World) : Layout → Prop
  | kept cfg id => ∃ q, w.disk.enter cfg.path = .ok q ∧ Store.Keeps q id {} w ∧
    Store.Alone id w.stores
  | folder cfg => ∀ q, (w.disk.createFolders cfg.path).2.enter cfg.path = .ok q →
    Store.Vacant q (w.disk.createFolders cfg.path).2

/-- A layout that can be had, and a world in which it is new and nothing is made to fail. -/
structure Fresh (y : Layout) (w : World) : Prop where
  compressor : y.config.compressor.Lawful
  cipher : y.config.cipher.Lawful
  capacity : y.config.capacity < 2 ^ 64
  sound : w.disk.Sound
  calm : w.Calm
  unused : y.Unused w

def Indexed (q : Place) (id : StoreId) (w : World) : Layout → Prop
  | kept _ id' => id = id'
  | folder cfg => Store.Linked q cfg id w

end Layout

variable {y y₁ y₂ : Layout} {q : Place} {l l' : Log} {c c' : Catalog} {u u' : Usage} {w w' : World}
  {writer : Writer} {saved : Bool} {cfg : Config} {id id' : StoreId} {s' : Writer × World}
  {pos : Option Nat}

theorem Writer.readThrough_eq (writer : Writer) (start : Nat) (w : World) :
    writer.reader.readThrough start w =
      ((writer.reader.readAmid start [] (fun _ => {}) (writer, w)).records,
        (writer.reader.readAmid start [] (fun _ => {}) (writer, w)).last,
        (writer.reader.readAmid start [] (fun _ => {}) (writer, w)).after.2) := by
  rw [Reader.readAmid, Reader.scanAmid_idle, Writing.onWorld, Reader.readThrough, Reader.scan,
    Reader.plan]
  simp only [bind, EStateM.bind, Reader.watermark, pure, EStateM.pure]
  cases writer.reader.chunks w with
  | error stop w' => cases stop <;> rfl
  | ok cs w' =>
    dsimp only
    rw [Reader.collectAmid_idle]
    rfl

namespace Outcome

theorem of_append {data : Bytes} {hd : Writable data}
    (h : Outcome q l c writer w (.append data hd) (.ok pos) l' c' s') :
    pos = some l'.stop ∧ l'.payloads = l.payloads ++ [data] := by
  have hpay := h.payloads_eq
  cases h with
  | appended hroom _ _ => exact ⟨rfl, hpay⟩

theorem of_checkpoint (h : Outcome q l c writer w .checkpoint (.ok pos) l' c' s') :
    pos = some l.stop ∧ l' = l.keep := by
  cases h with
  | kept _ _ => exact ⟨rfl, rfl⟩

theorem of_sealLive (h : Outcome q l c writer w .sealLive (.ok pos) l' c' s') :
    pos = none ∧ l'.payloads = l.payloads ∧ (l.cut = l → l'.cut = l') := by
  cases h with
  | empty _ => exact ⟨rfl, rfl, fun h => h⟩
  | sealed _ _ _ _ => exact ⟨rfl, Log.payloads_rotate _ _, fun _ => Log.cut_rotate _ _⟩

end Outcome

namespace Store.Linked

theorem under (h : Linked q cfg id w) (k : Circumstances) : Linked q cfg id (w.under id k) := by
  obtain ⟨hreach, s, f, hs, hf, hname⟩ := h
  exact ⟨hreach, { s with failCommits := k.refuses }, f,
    by rw [World.getElem?_stores_under, hs]; rfl, hf, hname⟩

theorem idle (h : Linked q cfg id w) (hi : World.Idle w w') : Linked q cfg id w' := by
  obtain ⟨hreach, s, f, hs, hf, hname⟩ := h
  exact ⟨hreach, s, f, hi.stores ▸ hs, hf, hi.disk ▸ hname⟩

theorem close (h : Linked q cfg id w) (hc : Store.close id w = .ok () w') :
    Linked q cfg id w' := by
  obtain ⟨hreach, s, f, hs, hf, hname⟩ := h
  rw [Store.close_eq hs] at hc
  cases hc
  obtain ⟨hlt, -⟩ := List.getElem?_eq_some_iff.1 hs
  exact ⟨hreach, _, f, List.getElem?_set_self hlt, hf, hname⟩

theorem entrance (h : Linked q cfg id w) (hq : w.disk.enter cfg.path = .ok q) (hc : Shut id w) :
    Entrance cfg id w (Writer.openFolder cfg) w.stores.length := by
  obtain ⟨hreach, s, f, hs, hf, hname⟩ := h
  obtain ⟨s', hs', hclosed⟩ := hc
  obtain rfl := Option.some.inj (hs.symm.trans hs')
  refine .folder hs hclosed hf ?_
  rw [Disk.find_of_reaches hq plain_index hreach, hname]

end Store.Linked

theorem Left.linked_enter {cfg' : Config} {capacity : Nat} {g : Ledger} {op : Op Writer}
    (h : Left cfg q l c capacity id w g) (ha : cfg.Alike cfg') (he : Entrance cfg' id w op id')
    {k : Circumstances} (hl : Store.Linked q cfg' id w) (hop : op (w.under id k) = .ok writer w') :
    Store.Linked q cfg' id' w' := by
  obtain ⟨w₁, heq, hdisk, hfaults, hkeeps, -, s, s₁, hs, hs₁, hm, -⟩ := h.enter_eq ha he k
  have hr : w₁.Returns := fun hook f hf => k.returns hook f (hfaults ▸ hf)
  obtain ⟨-, -, -, -, -, hmoves⟩ :=
    (Writer.ends_resume (hdisk.symm ▸ h.lies.alike ha) hkeeps hr).ok (heq ▸ hop)
  obtain ⟨hreach, s', f, hs', hf, hname⟩ := hl
  rw [hs] at hs'
  cases hs'
  exact Store.Linked.moves ⟨hreach, s₁, f, hs₁, hm.trans hf, hdisk.symm ▸ hname⟩ hmoves

namespace Usage

def inFile (u : Usage) : Bool := u.world.stores[u.writer.store]?.any (·.medium.inFile)

/-- A log in use in a layout, with all of it durable if it is `saved`. -/
structure Serves (y : Layout) (q : Place) (l : Log) (c : Catalog) (saved : Bool) (u : Usage) :
    Prop where
  held : ∃ g, Held y.config q l c u.writer u.writer.store u.world g
  told : ∀ pos ∈ u.told, l.Boundary pos
  saved : saved = true → l.cut = l
  indexed : y.Indexed q u.writer.store u.world

namespace Serves

theorem boundary (h : u.Serves y q l c saved) (turn : Nat) : l.Boundary (u.told.getD turn 0) := by
  rw [List.getD_eq_getElem?_getD]
  cases hx : u.told[turn]? with
  | none => exact ⟨[], List.nil_prefix, rfl⟩
  | some pos => exact h.told pos (List.mem_of_getElem? hx)

theorem told_append (h : u.Serves y q l c saved) {more : List Bytes}
    (hpay : l'.payloads = l.payloads ++ more) {pos : Option Nat}
    (hpos : ∀ p, pos = some p → p = l'.stop) : ∀ p ∈ u.told ++ pos.toList, l'.Boundary p := by
  intro p hp
  rcases List.mem_append.1 hp with hp | hp
  · obtain ⟨ps, hps, heq⟩ := h.told p hp
    exact ⟨ps, hps.trans ⟨more, hpay.symm⟩, heq⟩
  · obtain rfl := hpos p (Option.mem_toList.1 hp)
    exact ⟨l'.payloads, List.prefix_refl _, Log.stop_eq l'⟩

end Serves

end Usage

theorem Usage.Serves.ask (h : u.Serves y q l c saved) {a : Action} (ha : u.ask a = some (pos, u')) :
    ∃ l' c' s', Outcome q l c u.writer (u.world.under u.writer.store {}) a (.ok pos) l' c' s' ∧
      (∃ g, Held y.config q l' c' u'.writer u'.writer.store u'.world g) ∧
      y.Indexed q u'.writer.store u'.world ∧ u'.told = u.told ++ pos.toList ∧
      c.chunks.entries <+: c'.chunks.entries ∧ u'.inFile = u.inFile := by
  obtain ⟨g, hheld⟩ := h.held
  obtain ⟨l', c', s', ho, hs', hf, hheld'⟩ := hheld.act_outcome ⟨a, {}⟩
  have hmoves := ho.moves (hheld.settled.ready {}).carries
  unfold Usage.ask at ha
  generalize Step.take ⟨a, {}⟩ (u.writer, u.world) = out at ha ho hs' hf hheld'
  obtain ⟨answer, writer', w'⟩ := out
  cases answer with
  | error stop => cases ha
  | ok pos' =>
    cases ha
    obtain ⟨rfl, rfl⟩ := Prod.ext_iff.1 hs'
    have hstore : s'.1.store = u.writer.store := hf.store
    rw [← hstore] at hheld'
    refine ⟨l', c', s', ho, ⟨_, hheld'⟩, ?_, rfl, hf.entries, ?_⟩
    · have hindexed := h.indexed
      cases y with
      | kept cfg id => exact hstore.trans hindexed
      | folder cfg =>
        have hlinked := (Store.Linked.under hindexed {}).moves hmoves
        exact (hstore ▸ hlinked).under {}
    · obtain ⟨s, hs, -⟩ := hheld.settled.carries.index
      obtain ⟨s₁, hs₁, -⟩ := hf.settled.carries.index
      have hin := hf.inFile s s₁ hs (hf.store ▸ hs₁)
      simp only [Usage.inFile]
      rw [hs, hs₁, Option.any_some, Option.any_some, hin]

theorem Usage.Serves.readThrough (h : u.Serves y q l c saved) (turn : Nat) :
    ∃ records last w', u.writer.reader.readThrough (u.told.getD turn 0) u.world =
        (records, last, w') ∧ World.Idle u.world w' ∧
      (Store.Listable u.writer.store c u.world →
        records = l.records.filter (u.told.getD turn 0 ≤ ·.start) ∧ last = .done) := by
  obtain ⟨g, hheld⟩ := h.held
  obtain ⟨w', hi, hafter, heq⟩ := Reader.readFrom_eq (r := u.writer.reader)
    hheld.settled.carries.index u.writer (u.told.getD turn 0)
  refine ⟨_, _, w', by rw [Writer.readThrough_eq, hafter], hi, fun hl => ?_⟩
  have hread := hheld.settled.readFrom hl (h.boundary turn)
  rw [heq, Prod.mk.injEq] at hread
  exact hread

theorem Usage.Serves.idle (h : u.Serves y q l c saved) (hi : World.Idle u.world w') :
    { u with world := w' }.Serves y q l c saved where
  held := by
    obtain ⟨g, hheld⟩ := h.held
    exact ⟨g, hheld.idle hi⟩
  told := h.told
  saved := h.saved
  indexed := by
    have hindexed := h.indexed
    cases y with
    | kept cfg id => exact hindexed
    | folder cfg => exact Store.Linked.idle hindexed hi

theorem Layout.Indexed.under (h : y.Indexed q id w) : y.Indexed q id (w.under id {}) := by
  cases y with
  | kept cfg id' => exact h
  | folder cfg => exact Store.Linked.under h {}

theorem Layout.exists_entrance {g : Ledger} {capacity : Nat}
    (h : Left y.config q l c capacity id w g) (hopen : ¬ Store.Shut id w)
    (hi : y.Indexed q id w) (hstore : writer.store = id)
    (hrel : y.release writer w = .ok () w') :
    ∃ id', Left y.config q l c capacity id w' g ∧ Entrance y.config id w' y.opening id' ∧
      (∀ writer' w'', y.opening (w'.under id {}) = .ok writer' w'' → y.Indexed q id' w'') ∧
      w'.stores[id]?.any (·.medium.inFile) = w.stores[id]?.any (·.medium.inFile) := by
  obtain ⟨s, hs, -⟩ := h.index
  cases y with
  | kept cfg id' =>
    cases hrel
    obtain rfl : id = id' := hi
    have hclosed : s.closed = false := Bool.eq_false_iff.2 fun hc => hopen ⟨s, hs, hc⟩
    exact ⟨id, h, .shared hs hclosed, fun _ _ _ => rfl, rfl⟩
  | folder cfg =>
    have hclose : Store.close id w = .ok () w' := hstore ▸ hrel
    have hlinked := Store.Linked.close hi hclose
    have hleft := h.close hclose
    obtain ⟨hlt, -⟩ := List.getElem?_eq_some_iff.1 hs
    have hget : w'.stores[id]? = some { s with closed := true } := by
      rw [Store.close_eq hs] at hclose
      cases hclose
      exact List.getElem?_set_self hlt
    have he := hlinked.entrance hleft.lies.home ⟨_, hget, rfl⟩
    refine ⟨_, hleft, he, fun _ _ hop => hleft.linked_enter (.refl _) he hlinked hop, ?_⟩
    simp only [hget, hs, Option.any_some]

theorem Usage.Serves.reopen (h : u.Serves y q l c saved) (hsaved : saved = true)
    (hz : y.config.compressor.Lawful) (hc : y.config.cipher.Lawful)
    (hsize : y.config.capacity < 2 ^ 64) (hrel : y.release u.writer u.world = .ok () w)
    (hent : y.enter u.told w = some u') :
    u'.Serves y q l c saved ∧ u'.told = u.told ∧ u'.inFile = u.inFile := by
  obtain ⟨g, hheld⟩ := h.held
  have hopen : ¬ Store.Shut u.writer.store u.world := by
    rintro ⟨s, hs, hclosed⟩
    obtain ⟨s', hs', hclosed', -⟩ := hheld.settled.carries.index
    rw [hs] at hs'
    cases hs'
    exact Bool.false_ne_true (hclosed'.symm.trans hclosed)
  obtain ⟨id', hleft, he, hindexed, hin⟩ :=
    Layout.exists_entrance hheld.left hopen h.indexed rfl hrel
  obtain ⟨s, hs, -, hfail, -⟩ := hleft.index
  have hself : w.under u.writer.store {} = w := World.under_eq_self hleft.calm fun s' hs' => by
    rw [hs] at hs'
    cases hs'
    exact hfail
  unfold Layout.enter at hent
  cases hop : y.opening w with
  | error stop w' => simp [hop] at hent
  | ok writer' w' =>
    rw [hop] at hent
    cases hent
    rw [← hself] at hop
    have hheld' := hleft.enter hz hc (.refl _) hsize he hop
    obtain ⟨-, -, -, -, hcar, -, hinFile, -⟩ := (hleft.ends_enter (.refl _) he {}).ok hop
    obtain rfl : writer'.store = id' := hheld'.store
    rw [h.saved hsaved] at hheld'
    refine ⟨⟨⟨_, hheld'⟩, h.told, h.saved, (hindexed _ _ hop).under⟩, rfl, ?_⟩
    obtain ⟨s', hs', -⟩ := hcar.index
    rw [Usage.inFile, Usage.inFile, ← hin, World.getElem?_stores_under, hs, hs', Option.map_some,
      Option.any_some, Option.any_some]
    exact hinFile s s' hs hs'

theorem Wish.orderly_cons {wish : Wish} {wishes : List Wish}
    (h : orderly saved (wish :: wishes) = true) :
    (wish = reopen → saved = true) ∧ orderly (wish.keeps saved) wishes = true := by
  cases wish with
  | reopen => exact ⟨fun _ => (Bool.and_eq_true_iff.1 h).1, (Bool.and_eq_true_iff.1 h).2⟩
  | _ => exact ⟨by rintro ⟨⟩, h⟩

section runs

variable (hz : y.config.compressor.Lawful) (hc : y.config.cipher.Lawful)
  (hsize : y.config.capacity < 2 ^ 64)
include hz hc hsize

theorem Usage.Serves.grant (h : u.Serves y q l c saved) {wish : Wish} {reply : Response}
    (hreopen : wish = .reopen → saved = true) (hg : wish.grant y u = some (reply, u')) :
    ∃ l' c', u'.Serves y q l' c' (wish.keeps saved) ∧ c.chunks.entries <+: c'.chunks.entries ∧
      u'.inFile = u.inFile ∧ (l'.payloads, u'.told) = (wish.reply (l.payloads, u.told)).2 ∧
      (Store.Listable u.writer.store c u.world → reply = (wish.reply (l.payloads, u.told)).1) := by
  cases wish with
  | append data hd =>
    obtain ⟨⟨pos, u₁⟩, hask, hg⟩ := Option.bind_eq_some_iff.1 hg
    obtain ⟨l', c', s', ho, hheld, hindexed, htold, hentries, hin⟩ := h.ask hask
    obtain ⟨rfl, hpay⟩ := ho.of_append
    cases hg
    have hstop : l'.stop = extent (l.payloads ++ [data]) := by rw [Log.stop_eq, hpay]
    refine ⟨l', c', ⟨hheld, ?_, by rintro ⟨⟩, hindexed⟩, hentries, hin, ?_, fun _ => ?_⟩
    · rw [htold]
      exact h.told_append hpay fun p hp => (Option.some.inj hp).symm
    · rw [hpay, htold, hstop]
      rfl
    · rw [hstop]
      rfl
  | checkpoint =>
    obtain ⟨⟨pos, u₁⟩, hask, hg⟩ := Option.bind_eq_some_iff.1 hg
    obtain ⟨l', c', s', ho, hheld, hindexed, htold, hentries, hin⟩ := h.ask hask
    obtain ⟨rfl, rfl⟩ := ho.of_checkpoint
    cases hg
    refine ⟨l.keep, c', ⟨hheld, ?_, fun _ => Log.cut_keep l, hindexed⟩, hentries, hin, ?_,
      fun _ => ?_⟩
    · rw [htold]
      exact h.told_append (List.append_nil _).symm fun p hp => (Option.some.inj hp).symm
    · rw [htold, Log.stop_eq]
      rfl
    · rw [Log.stop_eq]
      rfl
  | scan turn =>
    obtain ⟨records, last, w', hread, hi, hshows⟩ := h.readThrough turn
    simp only [Wish.grant, hread, Option.some.injEq, Prod.mk.injEq] at hg
    obtain ⟨rfl, rfl⟩ := hg
    refine ⟨l, c, h.idle hi, List.prefix_refl _, ?_, rfl, fun hl => ?_⟩
    · rw [Usage.inFile, Usage.inFile, hi.stores]
    · obtain ⟨rfl, rfl⟩ := hshows hl
      have hspans := map_filter_start (u.told.getD turn 0) (map_records 0 (l.sealed ++ [l.live]))
      rw [List.flatMap_append] at hspans
      simp only [Wish.reply, Log.payloads, Log.records, hspans]
      simp
  | reopen =>
    cases hrel : y.release u.writer u.world with
    | error stop w₁ => simp only [Wish.grant, hrel, reduceCtorEq] at hg
    | ok done w₁ =>
      simp only [Wish.grant, hrel, Option.map_eq_some_iff, Prod.mk.injEq] at hg
      obtain ⟨u₁, hent, rfl, rfl⟩ := hg
      obtain ⟨hserves, htold, hin⟩ := h.reopen (hreopen rfl) hz hc hsize hrel hent
      exact ⟨l, c, hserves, List.prefix_refl _, hin, by rw [htold]; rfl, fun _ => rfl⟩

theorem Layout.serve_eq {script : List (Option Wish)} {rs : List Response}
    (h : u.Serves y q l c saved) (ho : Wish.orderly saved script.reduceOption = true)
    (hrun : y.serve script u = some (rs, u')) :
    ∃ l' c' saved', u'.Serves y q l' c' saved' ∧ c.chunks.entries <+: c'.chunks.entries ∧
      u'.inFile = u.inFile ∧
      ((u.inFile = true → ∀ chunk ∈ c'.chunks.values, chunk.Small) →
        rs = Wish.replies script.reduceOption (l.payloads, u.told)) := by
  induction script generalizing l c saved u rs with
  | nil =>
    cases hrun
    exact ⟨l, c, saved, h, List.prefix_refl _, rfl, fun _ => rfl⟩
  | cons doing script ih =>
    cases doing with
    | none =>
      obtain ⟨⟨pos, u₁⟩, hask, hrun⟩ := Option.bind_eq_some_iff.1 hrun
      obtain ⟨l₁, c₁, s', hseal, hheld, hindexed, htold, hentries, hin⟩ := h.ask hask
      obtain ⟨rfl, hpay, hcut⟩ := hseal.of_sealLive
      rw [Option.toList_none, List.append_nil] at htold
      have hserves : u₁.Serves y q l₁ c₁ saved := by
        refine ⟨hheld, fun p hp => ?_, fun hs => hcut (h.saved hs), hindexed⟩
        rw [htold] at hp
        rw [Log.Boundary, hpay]
        exact h.told p hp
      obtain ⟨l', c', saved', h', hentries', hin', hreplies⟩ := ih hserves ho hrun
      refine ⟨l', c', saved', h', hentries.trans hentries', hin'.trans hin, fun hsmall => ?_⟩
      rw [hpay, htold] at hreplies
      exact hreplies (hin ▸ hsmall)
    | some wish =>
      rw [List.reduceOption_cons_of_some] at ho ⊢
      obtain ⟨hreopen, ho⟩ := Wish.orderly_cons ho
      obtain ⟨⟨reply, u₁⟩, hg, hrun⟩ := Option.bind_eq_some_iff.1 hrun
      obtain ⟨⟨replies, u₂⟩, hrun, heq⟩ := Option.bind_eq_some_iff.1 hrun
      cases heq
      obtain ⟨l₁, c₁, h₁, hentries, hin, hstate, hreply⟩ := h.grant hz hc hsize hreopen hg
      obtain ⟨l', c', saved', h', hentries', hin', hreplies⟩ := ih h₁ ho hrun
      refine ⟨l', c', saved', h', hentries.trans hentries', hin'.trans hin, fun hsmall => ?_⟩
      have hlist : Store.Listable u.writer.store c u.world := by
        intro s hs hf chunk hchunk
        refine hsmall ?_ chunk ?_
        · rw [Usage.inFile, hs, Option.any_some, hf]
        · exact ((hentries.trans hentries').map _).subset hchunk
      rw [Wish.replies, ← hreply hlist, ← hstate, hreplies (hin ▸ hsmall)]

end runs

theorem Layout.Fresh.serves (hf : y.Fresh w) (hent : y.enter [] w = some u) :
    ∃ q l c, u.Serves y q l c true ∧ l.payloads = [] ∧ u.told = [] := by
  have hr : w.Returns := hf.calm.returns
  unfold Layout.enter at hent
  cases hop : y.opening w with
  | error stop w' => simp [hop] at hent
  | ok writer w' =>
    rw [hop] at hent
    cases hent
    have hserves {q : Place} {salt : UInt64}
        (h : Held y.config q { live := ⟨[], salt⟩ } { buffer := some writer.buffer.state } writer
          writer.store (w'.under writer.store {}) {})
        (hi : y.Indexed q writer.store (w'.under writer.store {})) :
        Usage.Serves y q { live := ⟨[], salt⟩ } { buffer := some writer.buffer.state } true
          ⟨writer, w'.under writer.store {}, []⟩ :=
      ⟨⟨_, h⟩, by simp, fun _ => rfl, hi⟩
    have hunused := hf.unused
    cases y with
    | kept cfg id =>
      obtain ⟨q, hq, hk, ha⟩ := hunused
      obtain ⟨q', salt, hheld⟩ := (Founding.shared hq hk ha).held hf.compressor hf.cipher hf.sound hr
        hf.capacity hop
      obtain ⟨-, -, hstore, -⟩ := (Writer.ends_resume_empty hf.sound hq hk hr).ok hop
      exact ⟨q', _, _, hserves hheld hstore, rfl, rfl⟩
    | folder cfg =>
      obtain ⟨q, salt, hheld⟩ := (Founding.folder hunused).held hf.compressor hf.cipher hf.sound hr
        hf.capacity hop
      obtain ⟨q', salt', hcfg, -, -, hcar, -, hlinked⟩ :=
        (Writer.ends_openFolder_new hf.sound hr hunused).ok hop
      obtain rfl : q' = q := Except.ok.inj (hcar.home.symm.trans hheld.settled.carries.home)
      exact ⟨q', _, _, hserves hheld (hlinked.under {}), rfl, rfl⟩

theorem Layout.Fresh.play_eq (hf : y.Fresh w) {script : List (Option Wish)} {rs : List Response}
    (ho : Wish.orderly true script.reduceOption = true) (hrun : y.play script w = some (rs, u))
    (hroom : Store.HasRoom u.writer.store u.writer.buffer.stop u.world) :
    rs = Wish.replies script.reduceOption ([], []) := by
  obtain ⟨u₀, hent, hrun⟩ := Option.bind_eq_some_iff.1 hrun
  obtain ⟨q, l, c, h₀, hpay, htold⟩ := hf.serves hent
  obtain ⟨l', c', saved, h', -, hin, hreplies⟩ :=
    Layout.serve_eq hf.compressor hf.cipher hf.capacity h₀ ho hrun
  obtain ⟨g, hheld⟩ := h'.held
  rw [hpay, htold] at hreplies
  refine hreplies fun hfile => ?_
  obtain ⟨s, hs, -⟩ := hheld.settled.carries.index
  rw [← hin, Usage.inFile, hs, Option.any_some] at hfile
  exact hheld.settled.carries.listable hroom s hs hfile

/-- Two logs that were asked the same, and were reopened only when all was durable, replied the
same, whatever their layouts are and wherever else they were sealed. -/
theorem Layout.Fresh.replies_agree {w₁ w₂ : World} {u₁ u₂ : Usage} {script₁ script₂ : List (Option Wish)}
    {rs₁ rs₂ : List Response} (hf₁ : y₁.Fresh w₁) (hf₂ : y₂.Fresh w₂)
    (hsame : script₁.reduceOption = script₂.reduceOption)
    (ho : Wish.orderly true script₁.reduceOption = true)
    (hrun₁ : y₁.play script₁ w₁ = some (rs₁, u₁)) (hrun₂ : y₂.play script₂ w₂ = some (rs₂, u₂))
    (hroom₁ : Store.HasRoom u₁.writer.store u₁.writer.buffer.stop u₁.world)
    (hroom₂ : Store.HasRoom u₂.writer.store u₂.writer.buffer.stop u₂.world) : rs₁ = rs₂ := by
  rw [hf₁.play_eq ho hrun₁ hroom₁, hf₂.play_eq (hsame ▸ ho) hrun₂ hroom₂, hsame]

def Compressor.reversing : Compressor where
  name := "Reversing"
  encode x := .ok x.reverse
  decode x := .ok x.reverse

theorem Compressor.lawful_reversing : Compressor.reversing.Lawful := by
  rintro x y ⟨⟩
  exact congrArg Except.ok x.reverse_reverse

def Cipher.inverting : Cipher where
  name := "Inverting"
  encode _ x := .ok (x.map (~~~ ·))
  decode x := .ok (x.map (~~~ ·))
  encodeAt _ _ x := .ok (x.map (~~~ ·))
  decodeAt _ _ x := .ok (x.map (~~~ ·))

theorem Cipher.lawful_inverting : Cipher.inverting.Lawful where
  decode_encode := by rintro _ x y ⟨⟩; simp [inverting, Function.comp_def]
  length_encodeAt := by rintro _ _ x y ⟨⟩; exact List.length_map _
  length_decodeAt := by rintro _ _ x y ⟨⟩; exact List.length_map _
  decodeAt_encodeAt := by rintro _ _ x y ⟨⟩; simp [inverting, Function.comp_def]
  encodeAt_decodeAt := by rintro _ _ x y ⟨⟩; simp [inverting, Function.comp_def]
  decodeAt_append := by rintro _ _ x x' y y' ⟨⟩ ⟨⟩; exact congrArg Except.ok List.map_append

/-- Settings under which every record is a segment of its own and no byte is stored as it is. -/
def Config.garbled : Config where
  folder := "log"
  capacity := 1
  compressor := .reversing
  cipher := .inverting

theorem Store.HasRoom.of_files {stop : Nat} (hstop : stop < 2 ^ 64)
    (hfiles : w.disk.files.all (·.size < 2 ^ 64) = true) : HasRoom id stop w := by
  intro s _ _
  refine ⟨hstop, fun f => ?_⟩
  rw [Disk.content, List.getD_eq_getElem?_getD]
  cases hf : w.disk.files[f]? with
  | none => decide
  | some content => exact of_decide_eq_true (List.all_eq_true.1 hfiles _ (List.mem_of_getElem? hf))

/-- Three appends, with a checkpoint and another writer before the last, and a scan. -/
def unsealedScript : List (Option Wish) :=
  [some (.append [21, 22] (by decide)), some (.append [23] (by decide)), some .checkpoint,
    some .reopen, some (.append [24] (by decide)), some (.scan 0)]

def sealedScript : List (Option Wish) :=
  [some (.append [21, 22] (by decide)), none, some (.append [23] (by decide)), some .checkpoint, none,
    some .reopen, some (.append [24] (by decide)), some (.scan 0)]

theorem replies_agree_garbled :
    ∃ rs u₁ u₂, (Layout.kept .plain 0).play sealedScript .blank = some (rs, u₁) ∧
      (Layout.folder .garbled).play unsealedScript .blank = some (rs, u₂) ∧
      rs = [.position 3, .position 5, .position 5, .opened, .position 7,
        .records [([23], 3, 5), ([24], 5, 7)] .done] := by
  have hkept : (Layout.kept .plain 0).Fresh .blank := {
    compressor := Compressor.lawful_identity
    cipher := Cipher.lawful_identity
    capacity := by decide
    sound := World.sound_blank
    calm := rfl
    unused := ⟨[], rfl, ⟨_, rfl, rfl, rfl, rfl⟩, fun s f hs hf => by cases hs; cases hf⟩ }
  have hfolder : (Layout.folder .garbled).Fresh .blank := {
    compressor := Compressor.lawful_reversing
    cipher := Cipher.lawful_inverting
    capacity := by decide
    sound := World.sound_blank
    calm := rfl
    unused := fun q hq f hf => by
      obtain rfl : ["log"] = q := Except.ok.inj ((by decide +kernel : _ = _).trans hq)
      have hnone : (World.blank.disk.createFolders Config.garbled.path).2.names.get?
        (["log"] ++ [indexFileName]) = none := by decide +kernel
      cases hnone.symm.trans hf }
  have hfacts₁ : ((Layout.kept .plain 0).play sealedScript .blank).any (fun s =>
      s.1 == [.position 3, .position 5, .position 5, .opened, .position 7,
        .records [([23], 3, 5), ([24], 5, 7)] .done] && !s.2.inFile) = true := by
    simp only [Layout.play, sealedScript, Layout.serve, Wish.grant, Writer.readThrough_eq]
    decide +kernel
  have hfacts₂ : ((Layout.folder .garbled).play unsealedScript .blank).any (fun s =>
      decide (s.2.writer.buffer.stop < 2 ^ 64) &&
        s.2.world.disk.files.all (·.size < 2 ^ 64)) = true := by
    simp only [Layout.play, unsealedScript, Layout.serve, Wish.grant, Writer.readThrough_eq]
    decide +kernel
  obtain ⟨⟨rs₁, u₁⟩, hrun₁, hfacts₁⟩ := (Option.any_eq_true _ _).1 hfacts₁
  obtain ⟨⟨rs₂, u₂⟩, hrun₂, hfacts₂⟩ := (Option.any_eq_true _ _).1 hfacts₂
  simp only [Bool.and_eq_true, beq_iff_eq, Bool.not_eq_true', decide_eq_true_eq] at hfacts₁ hfacts₂
  have hsame : sealedScript.reduceOption = unsealedScript.reduceOption := rfl
  obtain rfl := hkept.replies_agree hfolder hsame rfl hrun₁ hrun₂ (.of_memory hfacts₁.2)
    (.of_files hfacts₂.1 hfacts₂.2)
  exact ⟨rs₁, u₁, u₂, hrun₁, hrun₂, hfacts₁.1⟩

end RecordLog
