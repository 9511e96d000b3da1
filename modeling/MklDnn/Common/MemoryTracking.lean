import Mathlib.Algebra.Group.Nat.Even
import Mathlib.Data.List.Count
import Mathlib.Logic.Function.Basic
import MklDnn.Common.Utils

/-!
# The scratchpad registry

A primitive books the temporary memory that it needs with a registrar when it is created, and gets it from
a grantor when it is executed. Registrars and grantors of nested primitives put prefixes in front of the
keys. Addresses are natural numbers below `2 ^ 64`, with `0` for the null pointer.
-/

namespace MklDnn

def maxKey : ℕ := 2 ^ 10

def maxPrefix : ℕ := 2 ^ 7

/-- `make_key`, in `uint32_t` -/
def makeKey (globalPrefix key : ℕ) : ℕ := (globalPrefix + key) % 2 ^ 32

/-- `make_prefix`, in `uint32_t` -/
def makePrefix (parentPrefix localPrefix : ℕ) : ℕ :=
  (maxPrefix * parentPrefix + maxKey * localPrefix) % 2 ^ 32

/-- `utils::align_ptr` -/
def alignPtr (ptr alignment : ℕ) : ℕ :=
  (ptr + alignment - 1) % 2 ^ 64 &&& (2 ^ 64 - 1 - (alignment - 1))

def minimalAlignment : ℕ := 64

/-- `registry_t::entry_t` -/
structure Entry where
  offset : ℕ
  size : ℕ
  alignment : ℕ

/-- `registry_t` -/
structure Registry where
  offsetMap : ℕ → Option Entry
  size_ : ℕ

namespace Registry

def empty : Registry := ⟨fun _ => none, 0⟩

/-- `registry_t::book` -/
def book (r : Registry) (key size alignment : ℕ) : Registry :=
  if size = 0 then r
  else
    let size := rndUp size minimalAlignment
    let alignment := max alignment minimalAlignment
    { offsetMap := Function.update r.offsetMap key (some ⟨r.size_, size, alignment⟩)
      size_ := r.size_ + (size + alignment - minimalAlignment) }

/-- `registry_t::get` -/
def get (r : Registry) (key basePtr : ℕ) : ℕ :=
  if basePtr = 0 then 0
  else
    match r.offsetMap key with
    | none => 0
    | some e => alignPtr (alignPtr basePtr minimalAlignment + e.offset) e.alignment

/-- `registry_t::size` -/
def size (r : Registry) : ℕ := if r.size_ > 0 then r.size_ + minimalAlignment - 1 else 0

end Registry

/-- `registrar_t` without its reference to the registry -/
structure Registrar where
  globalPrefix : ℕ

namespace Registrar

/-- The registrar of the registry itself. -/
def base : Registrar := ⟨0⟩

/-- The registrar for a nested primitive. -/
def nested (parent : Registrar) (localPrefix : ℕ) : Registrar :=
  ⟨makePrefix parent.globalPrefix localPrefix⟩

/-- `registrar_t::book` -/
def book (r : Registrar) (registry : Registry) (key size alignment : ℕ) : Registry :=
  registry.book (makeKey r.globalPrefix key) size alignment

/-- The registrar at the end of a chain of prefixes. -/
def ofChain (chain : List ℕ) : Registrar := chain.foldl nested base

end Registrar

/-- `grantor_t` -/
structure Grantor where
  registry : Registry
  globalPrefix : ℕ
  basePtr : ℕ

namespace Grantor

/-- The grantor of the registry itself. -/
def base (registry : Registry) (basePtr : ℕ) : Grantor := ⟨registry, 0, basePtr⟩

/-- The grantor for a nested primitive. -/
def nested (parent : Grantor) (localPrefix : ℕ) : Grantor :=
  { parent with globalPrefix := makePrefix parent.globalPrefix localPrefix }

/-- `grantor_t::get` -/
def get (g : Grantor) (key : ℕ) : ℕ := g.registry.get (makeKey g.globalPrefix key) g.basePtr

/-- The grantor at the end of a chain of prefixes. -/
def ofChain (registry : Registry) (basePtr : ℕ) (chain : List ℕ) : Grantor :=
  chain.foldl nested (base registry basePtr)

end Grantor

/-- A booking through the registrar at the end of a chain of prefixes. -/
structure Booking where
  chain : List ℕ
  key : ℕ
  size : ℕ
  alignment : ℕ

/-- The registry after a sequence of bookings. -/
def bookAll (r : Registry) (bs : List Booking) : Registry :=
  bs.foldl (fun r b => (Registrar.ofChain b.chain).book r b.key b.size b.alignment) r

end MklDnn

/-!
## The global scratchpad

`global_scratchpad_t`: the primitives of a thread share one buffer, which grows when a scratchpad needs more and
is freed when the reference count of the thread drops to zero. A buffer has a number, which stands for its
address. An object of the class has no fields: what the specification knows of it is the thread that created it
and the size it was created with.
-/

namespace MklDnn.GlobalScratchpad

/-- What `malloc` returned. -/
structure Buffer where
  size : ℕ
  /-- The thread that allocated the buffer. -/
  owner : ℕ
  /-- How many times `free` was called on the buffer. -/
  freed : ℕ
  deriving DecidableEq

/-- The thread-local variables. -/
structure Locals where
  scratchpad_ : Option ℕ
  size_ : ℕ
  /-- An `unsigned int` -/
  referenceCount_ : ℕ

/-- A live scratchpad. -/
structure Pad where
  creator : ℕ
  size : ℕ
  deriving DecidableEq

structure State where
  buffers : List Buffer
  locals : ℕ → Locals
  pads : List Pad

/-- Before the first scratchpad. -/
def init : State := ⟨[], fun _ => ⟨none, 0, 0⟩, []⟩

/-- `free` -/
def free (buffers : List Buffer) : Option ℕ → List Buffer
  | none => buffers
  | some b => buffers.modify b fun buf => ⟨buf.size, buf.owner, buf.freed + 1⟩

namespace State

variable (s : State)

/-- `get`, called on thread `t` -/
def get (t : ℕ) : Option ℕ := (s.locals t).scratchpad_

/-- The constructor, called on thread `t`; `ok` says whether `malloc` succeeds. -/
def create (t size : ℕ) (ok : Bool) : State :=
  let l := s.locals t
  let count := (l.referenceCount_ + 1) % 2 ^ 32
  if size > l.size_ then
    let buffers := free s.buffers l.scratchpad_
    if ok then
      { buffers := buffers ++ [⟨size, t, 0⟩]
        locals := Function.update s.locals t ⟨some buffers.length, size, count⟩
        pads := ⟨t, size⟩ :: s.pads }
    else
      { buffers := buffers
        locals := Function.update s.locals t ⟨none, size, count⟩
        pads := ⟨t, size⟩ :: s.pads }
  else
    { buffers := s.buffers
      locals := Function.update s.locals t ⟨l.scratchpad_, l.size_, count⟩
      pads := ⟨t, size⟩ :: s.pads }

/-- The destructor of `pad`, called on thread `t`. -/
def destroy (pad : Pad) (t : ℕ) : State :=
  let l := s.locals t
  let count := (l.referenceCount_ + 2 ^ 32 - 1) % 2 ^ 32
  if count = 0 then
    { buffers := free s.buffers l.scratchpad_
      locals := Function.update s.locals t ⟨none, 0, count⟩
      pads := s.pads.erase pad }
  else
    { buffers := s.buffers
      locals := Function.update s.locals t ⟨l.scratchpad_, l.size_, count⟩
      pads := s.pads.erase pad }

/-- The number of live scratchpads that thread `t` created. -/
def live (t : ℕ) : ℕ := s.pads.countP fun p => p.creator = t

end State

/-- A creation or a destruction, and the thread that it runs on. -/
inductive Event where
  | create (t size : ℕ) (ok : Bool)
  | destroy (pad : Pad) (t : ℕ)

/-- A step; only live scratchpads can be destroyed. -/
def step (s : State) : Event → Option State
  | .create t size ok => some (s.create t size ok)
  | .destroy pad t => if pad ∈ s.pads then some (s.destroy pad t) else none

/-- The states that runs reach whose steps meet a condition. -/
inductive Reaches (cond : State → Event → Prop) : State → Prop
  | init : Reaches cond init
  | step {s s' : State} {e : Event} : Reaches cond s → cond s e → step s e = some s' → Reaches cond s'

/-- What the users of a scratchpad rely on. -/
structure Sound (s : State) : Prop where
  /-- On its creating thread, `get` of a live scratchpad returns a buffer that is not freed and large enough. -/
  get : ∀ p ∈ s.pads, ∃ b buf, s.get p.creator = some b ∧ s.buffers[b]? = some buf ∧ buf.freed = 0 ∧ p.size ≤ buf.size
  /-- No buffer is freed twice. -/
  freed_le : ∀ buf ∈ s.buffers, buf.freed ≤ 1
  /-- With the last scratchpad of a thread its buffers are freed. -/
  freed_last : ∀ buf ∈ s.buffers, s.live buf.owner = 0 → buf.freed = 1

/-- A creation finds a buffer that is large enough or gets one, and the reference count can count it; a
destruction runs on the thread of the creation. -/
def Proper (s : State) : Event → Prop
  | .create t size ok =>
    (if size > (s.locals t).size_ then ok = true else (s.get t).isSome = true) ∧ s.live t < 2 ^ 32
  | .destroy pad t => t = pad.creator

/-- The states that are reached by destroying scratchpads on the threads that created them. -/
inductive Unwinds (s : State) : State → Prop
  | refl : Unwinds s s
  | step {s' s'' : State} {pad : Pad} : Unwinds s s' → step s' (.destroy pad pad.creator) = some s'' → Unwinds s s''

end MklDnn.GlobalScratchpad
