import Mathlib.Data.List.Basic
import Mathlib.Logic.Function.Basic

/-!
# The primitive cache

`lru_primitive_cache_t` and `get_primitive` of an engine. A node of `cache_list_` has a number, which
stands for the iterators to it. Equality of keys is the one that the map of the cache uses.
-/

namespace MklDnn

/-! ## Keys -/

/-- `primitive_kind_t` -/
inductive PrimitiveKind where
  | undefined | reorder | shuffle | concat | sum | convolution | deconvolution | eltwise | softmax
  | pooling | lrn | batchNormalization | layerNormalization | innerProduct | rnn | gemm
  deriving DecidableEq

/-- What of the implementation in a key decides on the primitives that it creates: its kind, and whether
it is `ocl::cross_engine_reorder_t`. -/
structure ImplInfo where
  kind : PrimitiveKind
  crossEngine : Bool

/-- The implementations that create primitives when they are initialised, and which ones: reorders in
`ref_concat`, `ref_sum` and `simple_layer_normalization`, a convolution in the deconvolutions, `gemm` in
the inner product and the rnn of `ocl`, and a reorder on one engine in the reorder between engines. -/
def ImplInfo.creates (i j : ImplInfo) : Bool :=
  match i.kind with
  | .concat | .sum | .layerNormalization => j.kind = .reorder
  | .deconvolution => j.kind = .convolution
  | .innerProduct | .rnn => j.kind = .gemm
  | .reorder => i.crossEngine && j.kind = .reorder && !j.crossEngine
  | _ => false

/-! ## `lru_primitive_cache_t` -/

structure CacheNode (K V : Type*) where
  id : ℕ
  key : K
  impl : V

structure LruPrimitiveCache (K V : Type*) where
  capacity : ℕ
  cacheList : List (CacheNode K V)
  cacheMapper : K → Option ℕ
  nextId : ℕ

namespace LruPrimitiveCache

variable {K V : Type*} [DecidableEq K]

/-- A new cache. -/
def create (capacity : ℕ) : LruPrimitiveCache K V := ⟨capacity, [], fun _ => none, 0⟩

/-- Invalidating the least recently used entry. -/
def evict (c : LruPrimitiveCache K V) : LruPrimitiveCache K V :=
  match c.cacheList.getLast? with
  | none => c
  | some back =>
    { c with
      cacheMapper := Function.update c.cacheMapper back.key none
      cacheList := c.cacheList.dropLast }

/-- `emplace_front` and `insert`, which does not replace an entry with the same key. -/
def place (c : LruPrimitiveCache K V) (key : K) (impl : V) : LruPrimitiveCache K V :=
  { c with
    cacheList := ⟨c.nextId, key, impl⟩ :: c.cacheList
    cacheMapper :=
      if (c.cacheMapper key).isSome then c.cacheMapper
      else Function.update c.cacheMapper key (some c.nextId)
    nextId := c.nextId + 1 }

/-- `add` -/
def add (c : LruPrimitiveCache K V) (key : K) (impl : V) : LruPrimitiveCache K V :=
  if c.capacity = 0 then c
  else if c.cacheList.length ≥ c.capacity then c.evict.place key impl
  else c.place key impl

/-- `splice`: the node with number `id` is moved to the front. -/
def splice (c : LruPrimitiveCache K V) (node : CacheNode K V) : LruPrimitiveCache K V :=
  { c with cacheList := node :: c.cacheList.eraseP fun x => x.id = node.id }

/-- `get`. An iterator of the map points to a node of the list. -/
def get (c : LruPrimitiveCache K V) (key : K) : LruPrimitiveCache K V × Option V :=
  if c.capacity = 0 then (c, none)
  else
    match c.cacheMapper key with
    | none => (c, none)
    | some id =>
      match c.cacheList.find? fun x => x.id = id with
      | none => (c, none)
      | some node => (c.splice node, some node.impl)

end LruPrimitiveCache

/-! ## `get_primitive` -/

/-- A call of `get_primitive`: the key, whether a wrapper can be allocated on a hit, and what happens if
the primitive has to be created: the calls that its creation makes, and the implementation if the creation
succeeds. -/
inductive Call (K V : Type*) where
  | mk (key : K) (wrapper : Bool) (nested : List (Call K V)) (impl : Option V)

/-- What a call returns. -/
inductive GetResult (V : Type*) where
  | hit (impl : V)
  | outOfMemory
  | created (impl : V)
  | failed

/-- What is done with the cache: a lookup that finds the key, or an insertion of a new implementation. -/
inductive CacheUse (K V : Type*) where
  | hit (key : K) (impl : V)
  | create (key : K) (impl : V)

variable {K V : Type*} [DecidableEq K]

def CacheUse.key : CacheUse K V → K
  | .hit key _ => key
  | .create key _ => key

mutual

/-- `get_primitive`: the cache after the call, what the call returns and how it has used the cache. The
calls of the creation hold the recursive mutex, so nothing else happens between them. -/
def getPrimitive (c : LruPrimitiveCache K V) :
    Call K V → LruPrimitiveCache K V × GetResult V × List (CacheUse K V)
  | .mk key wrapper nested impl =>
    match (c.get key).2 with
    | some v => ((c.get key).1, if wrapper then .hit v else .outOfMemory, [.hit key v])
    | none =>
      -- cache miss
      let r := getPrimitives (c.get key).1 nested
      match impl with
      | none => (r.1, .failed, r.2)
      | some v => (r.1.add key v, .created v, r.2 ++ [.create key v])

/-- One call after the other. -/
def getPrimitives (c : LruPrimitiveCache K V) :
    List (Call K V) → LruPrimitiveCache K V × List (CacheUse K V)
  | [] => (c, [])
  | call :: calls =>
    let r := getPrimitive c call
    let r' := getPrimitives r.1 calls
    (r'.1, r.2.2 ++ r'.2)

end

def Call.key : Call K V → K
  | .mk key _ _ _ => key

def Call.nested : Call K V → List (Call K V)
  | .mk _ _ nested _ => nested

mutual

/-- A creation only makes calls that its implementation makes. -/
def Call.WellNested (info : K → ImplInfo) : Call K V → Prop
  | .mk key _ nested _ => Call.AllNested info key nested

def Call.AllNested (info : K → ImplInfo) (key : K) : List (Call K V) → Prop
  | [] => True
  | call :: calls =>
    (info key).creates (info call.key) = true ∧ Call.WellNested info call ∧
      Call.AllNested info key calls

end

end MklDnn
