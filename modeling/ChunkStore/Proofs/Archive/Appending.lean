import ChunkStore.Proofs.Placed
import ChunkStore.Proofs.Results
import ChunkStore.Writer

/-!
# Appends to one file

An appender is asked, one call after another, to store a chunk, to store bytes as they are, or where
its end is (`Appender.Call`). What a call stores, or why it fails (`Appender.storing`), depends on
the filters and on whether the sink can grow, and never on what the sink holds. So one call is
known by where the end is (`perform_eq`): it puts what it stores there, or leaves everything alone.
A run leaves the first content with what its calls stored behind it (`after_eq`), every address it
gave leads to what was stored for it (`appended_stays`), and no two of them share a byte.

`Sink.append` puts bytes at the end outright. A file is written where it stands, over what is there
(`Sink.writeAt`); `appendRaw_eq_writeAt` says that moving to the end first makes it the same.
-/

namespace ChunkStore

/-! ## Writing where the file stands -/

/-- Writes bytes over the content from `position` on. A sink that can grow is filled up to there
with zeros and takes them all; another one takes what it has room for and refuses the rest. -/
def Sink.writeAt (s : Sink) (position : Nat) (bytes : Bytes) : Except Error Unit × Sink :=
  let filled := if s.growable then List.replicate (position - s.content.length) 0 else []
  let taken := if s.growable then bytes else bytes.take (s.content.length - position)
  let before := (s.content ++ filled).take position
  let content := before ++ taken ++ s.content.drop (position + taken.length)
  (if taken.length = bytes.length then .ok () else .error .sinkFull, { s with content })

/-- At the end nothing is written over, and a sink that cannot grow has no room at all. -/
theorem Sink.writeAt_end (s : Sink) (bytes : Bytes) :
    s.writeAt s.content.length bytes =
      match s.append bytes with
      | .ok s => (.ok (), s)
      | .error e => (.error e, s) := by
  obtain ⟨content, growable⟩ := s
  cases growable with
  | true => simp [writeAt, append]
  | false => cases bytes <;> simp [writeAt, append]

namespace Appender

theorem appendRaw_eq_writeAt (a : Appender) (bytes : Bytes) :
    a.appendRaw bytes =
      let wrote := a.sink.writeAt a.endPosition bytes
      (wrote.1.map fun _ => a.endPosition, { a with sink := wrote.2 }) := by
  rw [endPosition, Sink.writeAt_end, appendRaw]
  cases a.sink.append bytes <;> rfl

/-! ## Calls -/

/-- What can be asked of an appender. -/
inductive Call where
  | append (chunk : Bytes)
  | appendRaw (bytes : Bytes)
  | endPosition
  deriving DecidableEq, Repr

/-- What an appender answers. -/
inductive Answer where
  | stored (descriptor : Descriptor)
  | position (address : Nat)
  deriving DecidableEq, Repr

/-- Where an answer says that something begins. -/
def Answer.address : Answer → Nat
  | .stored d => d.address
  | .position address => address

/-- Carries out a call. -/
def perform (a : Appender) : Call → Except Error Answer × Appender
  | .append chunk =>
    let (result, a) := a.append chunk
    (result.map .stored, a)
  | .appendRaw bytes =>
    let (result, a) := a.appendRaw bytes
    (result.map .position, a)
  | .endPosition => (.ok (.position a.endPosition), a)

/-- The appender after calls, one after another, whatever they answered. -/
def after (a : Appender) (calls : List Call) : Appender :=
  calls.foldl (fun a call => (a.perform call).2) a

/-! ## What a call stores -/

/-- What a call would put into the file. -/
def encoded (a : Appender) : Call → Except Error Encoded
  | .append chunk => a.registry.encode a.pipeline chunk a.elementSize
  | .appendRaw bytes => .ok ⟨bytes, 0⟩
  | .endPosition => .ok ⟨[], 0⟩

/-- What a call puts into the file, or why it fails: a filter does, or the sink is full. -/
def storing (a : Appender) (call : Call) : Except Error Encoded :=
  match a.encoded call with
  | .error e => .error e
  | .ok stored =>
    if a.sink.growable || stored.data.isEmpty then .ok stored else .error .sinkFull

/-- The bytes that a call leaves in the file. -/
def leaves (a : Appender) (call : Call) : Bytes :=
  match a.storing call with
  | .ok stored => stored.data
  | .error _ => []

/-- The answer to a call that stored something at an address. -/
def Call.answer (call : Call) (address : Nat) (stored : Encoded) : Answer :=
  match call with
  | .append _ => .stored ⟨address, stored.data.length, stored.mask⟩
  | .appendRaw _ | .endPosition => .position address

@[simp] theorem Call.address_answer (call : Call) (address : Nat) (stored : Encoded) :
    (call.answer address stored).address = address := by
  cases call <;> rfl

/-- The appender with bytes behind its content. -/
def extend (a : Appender) (bytes : Bytes) : Appender :=
  { a with sink := { a.sink with content := a.sink.content ++ bytes } }

@[simp] theorem content_extend (a : Appender) (bytes : Bytes) :
    (a.extend bytes).sink.content = a.sink.content ++ bytes := rfl

@[simp] theorem extend_nil (a : Appender) : a.extend [] = a := by simp [extend]

@[simp] theorem extend_extend (a : Appender) (first second : Bytes) :
    (a.extend first).extend second = a.extend (first ++ second) := by simp [extend]

@[simp] theorem storing_extend (a : Appender) (bytes : Bytes) (call : Call) :
    (a.extend bytes).storing call = a.storing call := by
  cases call <;> rfl

@[simp] theorem leaves_extend (a : Appender) (bytes : Bytes) :
    (a.extend bytes).leaves = a.leaves := by
  funext call
  simp [leaves]

theorem encoded_of_storing {a : Appender} {call : Call} {stored : Encoded}
    (h : a.storing call = .ok stored) : a.encoded call = .ok stored := by
  unfold storing at h
  split at h
  · cases h
  next encoded =>
    split at h
    · cases h
      exact encoded
    · cases h

/-! ## One call -/

theorem appendRaw_eq (a : Appender) (bytes : Bytes) :
    a.appendRaw bytes =
      if a.sink.growable || bytes.isEmpty then (.ok a.endPosition, a.extend bytes)
      else (.error .sinkFull, a) := by
  unfold appendRaw Sink.append
  by_cases room : (a.sink.growable || bytes.isEmpty) = true
  · rw [if_pos room, if_pos room]
    rfl
  · rw [if_neg room, if_neg room]

/-- A call puts what it stores at the end, or fails and leaves the appender as it was. -/
theorem perform_eq (a : Appender) (call : Call) :
    a.perform call =
      match a.storing call with
      | .ok stored => (.ok (call.answer a.endPosition stored), a.extend stored.data)
      | .error e => (.error e, a) := by
  cases call with
  | append chunk =>
    simp only [perform, append, storing, encoded]
    cases a.registry.encode a.pipeline chunk a.elementSize with
    | error e => rfl
    | ok stored =>
      simp only [appendRaw_eq]
      split <;> rfl
  | appendRaw bytes =>
    simp only [perform, storing, encoded, appendRaw_eq]
    split <;> rfl
  | endPosition => simp [perform, storing, encoded, Call.answer]

theorem snd_perform (a : Appender) (call : Call) :
    (a.perform call).2 = a.extend (a.leaves call) := by
  rw [perform_eq, leaves]
  cases a.storing call <;> simp

/-! ## A run of calls -/

theorem after_append (a : Appender) (earlier later : List Call) :
    a.after (earlier ++ later) = (a.after earlier).after later := by
  simp [after]

@[simp] theorem after_cons (a : Appender) (call : Call) (later : List Call) :
    a.after (call :: later) = (a.extend (a.leaves call)).after later := by
  rw [← snd_perform]
  rfl

/-- A run puts what its calls store behind the content, one call after another. -/
theorem after_eq (a : Appender) (calls : List Call) :
    a.after calls = a.extend (calls.flatMap a.leaves) := by
  induction calls generalizing a with
  | nil => simp [after]
  | cons call calls ih => simp [ih]

/-- What calls stored is where it was put, whatever was asked since. -/
theorem placed_after (a : Appender) (earlier : List Call) (call : Call) (later : List Call) :
    Placed (a.after (earlier ++ call :: later)).sink.content
      (a.after earlier).sink.content.length (a.leaves call) := by
  rw [after_append, after_cons, after_eq _ later]
  simp only [content_extend]
  have atEnd := Placed.atEnd (a.after earlier).sink.content (a.leaves call)
  rw [after_eq] at atEnd ⊢
  rw [leaves_extend]
  exact atEnd.grow _

/-- A call that succeeds answers where the end is. -/
theorem address_of_perform {a : Appender} {call : Call} {answer : Answer}
    (done : (a.perform call).1 = .ok answer) : answer.address = a.sink.content.length := by
  rw [perform_eq] at done
  cases storing : a.storing call with
  | error e =>
    rw [storing] at done
    cases done
  | ok stored =>
    rw [storing] at done
    cases done
    exact call.address_answer _ _

/-- Appending goes on at the end and disturbs nothing. The file is the first content with what the
calls stored behind it, in order. At any point of a run a call that fails leaves the appender as it
was; one that succeeds answers where the end is and puts what it stores there. What it stored stays
before the address of every later answer, and a descriptor leads to what the filters made of its
chunk for as long as the run goes on. -/
theorem appended_stays (a : Appender) :
    (∀ calls, (a.after calls).sink.content = a.sink.content ++ calls.flatMap a.leaves) ∧
    (∀ earlier call, (a.after earlier).perform call =
      match a.storing call with
      | .error e => (.error e, a.after earlier)
      | .ok stored =>
        (.ok (call.answer (a.after earlier).sink.content.length stored),
          (a.after earlier).extend stored.data)) ∧
    (∀ earlier call between call' answer answer',
      ((a.after earlier).perform call).1 = .ok answer →
      ((a.after (earlier ++ call :: between)).perform call').1 = .ok answer' →
      answer.address + (a.leaves call).length ≤ answer'.address) ∧
    ∀ earlier chunk later d, ((a.after earlier).append chunk).1 = .ok d →
      ∃ data, a.registry.encode a.pipeline chunk a.elementSize = .ok ⟨data, d.filterMask⟩ ∧
        Image.read (a.after (earlier ++ .append chunk :: later)).sink.content
          d.address d.storedSize = .ok data := by
  refine ⟨?_, ?_, ?_, ?_⟩
  · intro calls
    rw [after_eq, content_extend]
  · intro earlier call
    rw [perform_eq, after_eq, storing_extend]
    cases a.storing call <;> rfl
  · intro earlier call between call' answer answer' first second
    rw [address_of_perform first, address_of_perform second]
    exact (placed_after a earlier call between).le
  · intro earlier chunk later d done
    have performed : ((a.after earlier).perform (.append chunk)).1 = .ok (.stored d) := by
      simp only [perform, done]
      rfl
    have start := address_of_perform performed
    rw [perform_eq, after_eq, storing_extend] at performed
    cases storing : a.storing (.append chunk) with
    | error e => simp [storing] at performed
    | ok stored =>
      have encoded := encoded_of_storing storing
      have place := placed_after a earlier (.append chunk) later
      rw [← start] at place
      simp only [leaves, storing] at performed place
      cases performed
      exact ⟨stored.data, encoded, place.read rfl⟩

/-- A chunk with its checksum, behind two bytes, and a byte as it is after it. -/
theorem appended_stays_behind_two :
    let a : Appender := ⟨⟨[238, 238], true⟩, .ofFilters [⟨3, none, 0, []⟩], .builtin, 1⟩
    let calls : List Call := [.append [7], .endPosition, .appendRaw [1]]
    (Answer.stored ⟨2, 5, 0⟩).address + (a.leaves (.append [7])).length ≤
        (Answer.position 7).address ∧
      ∃ data, a.registry.encode a.pipeline [7] a.elementSize = .ok ⟨data, 0⟩ ∧
        Image.read (a.after calls).sink.content 2 5 = .ok data := by
  intro a calls
  obtain ⟨-, -, apart, leads⟩ := appended_stays a
  constructor
  · exact apart [] (.append [7]) [.endPosition] (.appendRaw [1]) _ _ (by decide +kernel)
      (by decide +kernel)
  · exact leads [] [7] [.endPosition, .appendRaw [1]] ⟨2, 5, 0⟩ (by decide +kernel)

end Appender

end ChunkStore
