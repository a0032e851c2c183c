import RecordLog.Error
import RecordLog.Varint

/-!
# Records and the content of a segment

A record is written as the length of its payload, a signed number of varying size, followed by
the payload. The plain content of a segment is a run of records and nothing else. A `Cursor`
walks such a run: it yields each record with its position in the log, and at the end of its bytes
it either accepts a record that was cut short or reports it. Positions have no bound here; what
becomes of a cursor whose positions have 64 bits is said in `RecordLog.Proofs.CheckedCursors`.
-/

namespace RecordLog

structure Record where
  data : Bytes
  /-- Where the segment that holds the record starts. -/
  segment : Nat
  /-- Where the record starts, its length included. -/
  start : Nat
  /-- Where the record ends. -/
  next : Nat
  deriving Repr, DecidableEq

namespace Record

def encode (payload : Bytes) : Bytes := Varint.encode payload.length ++ payload

def size (payload : Bytes) : Nat := Varint.size payload.length + payload.length

theorem length_encode (payload : Bytes) : (encode payload).length = size payload := by
  simp [encode, size, Varint.length_encode]

end Record

structure Cursor where
  /-- The name errors give to the segment. -/
  name : String
  segment : Nat
  /-- Position in the log of the first byte of `rest`. -/
  pos : Nat
  rest : Bytes
  /-- Whether a record cut short by the end of `rest` ends the run quietly. -/
  lenient : Bool
  finished : Bool := false
  deriving Repr, DecidableEq

namespace Cursor

def finish (c : Cursor) : Cursor := { c with finished := true }

def fail (c : Cursor) (reason : String) : Option (Except Error Record) × Cursor :=
  (some (.error (.corrupt c.name reason)), c.finish)

def torn (c : Cursor) (what : String) : Option (Except Error Record) × Cursor :=
  if c.lenient then (none, c.finish) else c.fail s!"{what} at position {c.pos}"

/-- The next record or the error that ends the run; `none` from then on. -/
def next (c : Cursor) : Option (Except Error Record) × Cursor :=
  if c.finished || c.rest.isEmpty then (none, c)
  else
    match Varint.read c.rest with
    | .short => c.torn "truncated length prefix"
    | .overlong => c.fail "varint overflow"
    | .value len used =>
      if len < 0 then c.fail s!"negative record length {len} at position {c.pos}"
      else
        let body := c.rest.drop used
        let data := body.take len.toNat
        if data.length < len.toNat then c.torn "truncated payload"
        else
          let pos := c.pos + used + data.length
          (some (.ok ⟨data, c.segment, c.pos, pos⟩),
            { c with pos, rest := body.drop data.length })

theorem rest_lt_of_next {c c' : Cursor} {r : Record} (h : c.next = (some (.ok r), c')) :
    c'.rest.length < c.rest.length := by
  unfold next at h
  split at h
  · simp at h
  split at h
  · unfold torn fail at h; split at h <;> simp at h
  · simp [fail] at h
  · rename_i len used hread
    obtain ⟨hpos, hle⟩ := Varint.used_le_of_read hread
    split at h
    · simp [fail] at h
    dsimp only at h
    split at h
    · unfold torn fail at h; split at h <;> simp at h
    · simp only [Prod.mk.injEq, Option.some.injEq] at h
      rw [← h.2]
      simp only [List.length_drop]
      omega

end Cursor

end RecordLog
