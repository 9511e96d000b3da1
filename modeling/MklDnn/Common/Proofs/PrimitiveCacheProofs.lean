import MklDnn.Common.PrimitiveCache
import MklDnn.Lib.Recency

/-!
# Proofs: the primitive cache

A lookup and an insertion keep the list and the map of the cache in bijection and the list in the order of
the last use. An insertion needs that its key is not in the cache; between the lookup that missed it and
the insertion there are only calls for keys of implementations of a lower level.
-/

open Recency

namespace MklDnn

variable {K V : Type*}

namespace LruPrimitiveCache

/-- The keys of the list, the latest first. -/
def keys (c : LruPrimitiveCache K V) : List K := c.cacheList.map CacheNode.key

/-- Every hit has found an implementation that had been created for its key. -/
def HitsOk (uses : List (CacheUse K V)) : Prop :=
  ∀ pre post key v, uses = pre ++ .hit key v :: post → .create key v ∈ pre

variable {uses : List (CacheUse K V)}

theorem HitsOk.append_create (h : HitsOk uses) (key : K) (v : V) :
    HitsOk (uses ++ [.create key v]) := by
  intro pre post key' v' heq
  rcases List.append_eq_append_iff.mp heq with ⟨as, rfl, has⟩ | ⟨cs, huses, hcs⟩
  · cases as with
    | nil => simp at has
    | cons a as => simp at has
  · cases cs with
    | nil => simp at hcs
    | cons a cs =>
      obtain ⟨rfl, -⟩ := List.cons.inj hcs
      exact h pre cs key' v' huses

theorem HitsOk.append_hit (h : HitsOk uses) {key : K} {v : V} (hmem : .create key v ∈ uses) :
    HitsOk (uses ++ [.hit key v]) := by
  intro pre post key' v' heq
  rcases List.append_eq_append_iff.mp heq with ⟨as, rfl, has⟩ | ⟨cs, huses, hcs⟩
  · cases as with
    | nil =>
      obtain ⟨heq', -⟩ := List.cons.inj has
      obtain ⟨rfl, rfl⟩ := CacheUse.hit.inj heq'
      exact List.mem_append_left _ hmem
    | cons a as => simp at has
  · cases cs with
    | nil =>
      rw [List.append_nil] at huses
      subst huses
      obtain ⟨heq', -⟩ := List.cons.inj hcs
      obtain ⟨rfl, rfl⟩ := CacheUse.hit.inj heq'
      exact hmem
    | cons a cs =>
      obtain ⟨rfl, -⟩ := List.cons.inj hcs
      exact h pre cs key' v' huses

/-! ## Lookups -/

/-- A lookup that finds nothing changes nothing. -/
theorem get_none {c : LruPrimitiveCache K V} {key : K} (h : (c.get key).2 = none) : (c.get key).1 = c := by
  unfold get at h ⊢
  split_ifs at h ⊢ with hcap
  · rfl
  · cases hmap : c.cacheMapper key with
    | none => rfl
    | some id =>
      rw [hmap] at h
      dsimp only at h ⊢
      cases hfind : c.cacheList.find? fun x => x.id = id with
      | none => rfl
      | some node =>
        rw [hfind] at h
        simp at h

/-- What a lookup finds. -/
theorem get_some {c : LruPrimitiveCache K V} {key : K} {v : V} (h : (c.get key).2 = some v) :
    ∃ node ∈ c.cacheList, c.cacheMapper key = some node.id ∧ node.impl = v ∧
      (c.get key).1 = c.splice node := by
  unfold get at h ⊢
  split_ifs at h ⊢ with hcap
  cases hmap : c.cacheMapper key with
  | none =>
    rw [hmap] at h
    simp at h
  | some id =>
    rw [hmap] at h
    dsimp only at h ⊢
    cases hfind : c.cacheList.find? fun x => x.id = id with
    | none =>
      rw [hfind] at h
      simp at h
    | some node =>
      rw [hfind] at h
      have hid : node.id = id := by simpa using List.find?_some hfind
      refine ⟨node, List.mem_of_find?_eq_some hfind, ?_, by simpa using h, rfl⟩
      rw [hid]

variable [DecidableEq K]

/-- The map leads from the keys of the nodes to their numbers and from nothing else. -/
structure Linked (c : LruPrimitiveCache K V) : Prop where
  mapper_iff : ∀ key id, c.cacheMapper key = some id ↔ ∃ node ∈ c.cacheList, node.id = id ∧ node.key = key
  ids_nodup : (c.cacheList.map CacheNode.id).Nodup
  ids_lt : ∀ node ∈ c.cacheList, node.id < c.nextId

/-- The state of the cache after the uses `uses`. -/
structure Valid (c : LruPrimitiveCache K V) (uses : List (CacheUse K V)) : Prop extends Linked c where
  keys_eq : c.keys = (recent (uses.map CacheUse.key)).take c.capacity
  created : ∀ node ∈ c.cacheList, .create node.key node.impl ∈ uses
  hits : HitsOk uses

variable {c : LruPrimitiveCache K V}

theorem Valid.keys_nodup (h : c.Valid uses) : c.keys.Nodup := by
  rw [h.keys_eq]
  exact (List.take_sublist _ _).nodup (nodup_recent _)

theorem Valid.length_le (h : c.Valid uses) : c.cacheList.length ≤ c.capacity := by
  have hlen := congrArg List.length h.keys_eq
  rw [keys, List.length_map, List.length_take] at hlen
  omega

theorem valid_create (capacity : ℕ) : (create capacity : LruPrimitiveCache K V).Valid [] where
  mapper_iff key id := by simp [create]
  ids_nodup := List.nodup_nil
  ids_lt := by simp [create]
  keys_eq := by simp [create, keys]
  created := by simp [create]
  hits pre post key v h := by simp at h

theorem Valid.notMem_of_get_none (hv : c.Valid uses) {key : K} (h : (c.get key).2 = none) :
    key ∉ c.keys := by
  intro hmem
  obtain ⟨node, hnode, rfl⟩ := List.mem_map.mp hmem
  have hpos : c.capacity ≠ 0 := by
    have hlen := hv.length_le
    have hne := List.length_pos_of_mem hnode
    omega
  have hmap := (hv.mapper_iff node.key node.id).mpr ⟨node, hnode, rfl, rfl⟩
  unfold get at h
  rw [if_neg hpos, hmap] at h
  dsimp only at h
  cases hfind : c.cacheList.find? fun x => x.id = node.id with
  | none =>
    rw [List.find?_eq_none] at hfind
    exact hfind node hnode (by simp)
  | some node' =>
    rw [hfind] at h
    simp at h

/-- Moving a node to the front permutes the list. -/
theorem splice_perm {l : List (CacheNode K V)} {node : CacheNode K V} (hnode : node ∈ l)
    (hids : (l.map CacheNode.id).Nodup) (hkeys : (l.map CacheNode.key).Nodup) :
    (node :: l.eraseP fun x => x.id = node.id).Perm l ∧
      (node :: l.eraseP fun x => x.id = node.id).map CacheNode.key =
        use (l.map CacheNode.key) node.key := by
  unfold use
  induction l with
  | nil => simp at hnode
  | cons x l ih =>
    rw [List.map_cons, List.nodup_cons] at hids hkeys
    by_cases hx : x = node
    · subst hx
      simp
    · have hmem : node ∈ l := (List.mem_cons.mp hnode).resolve_left (Ne.symm hx)
      have hidne : x.id ≠ node.id := fun heq => hids.1 (heq ▸ List.mem_map_of_mem hmem)
      have hkeyne : x.key ≠ node.key := fun heq => hkeys.1 (heq ▸ List.mem_map_of_mem hmem)
      obtain ⟨hperm, hmap⟩ := ih hmem hids.2 hkeys.2
      rw [List.eraseP_cons_of_neg (by simpa using hidne)]
      refine ⟨(List.Perm.swap x node _).trans (hperm.cons x), ?_⟩
      rw [List.map_cons, List.cons.injEq] at hmap
      rw [List.map_cons, List.map_cons, List.map_cons, List.erase_cons_tail (by simpa using hkeyne),
        hmap.2]

/-- A hit keeps the cache valid. -/
theorem Valid.get_hit (hv : c.Valid uses) {key : K} {v : V} (h : (c.get key).2 = some v) :
    (c.get key).1.Valid (uses ++ [.hit key v]) := by
  obtain ⟨node, hnode, hmap, rfl, heq⟩ := get_some h
  have hkey : node.key = key := by
    obtain ⟨node', hnode', hid, rfl⟩ := (hv.mapper_iff key node.id).mp hmap
    have hsame : node' = node := List.inj_on_of_nodup_map hv.ids_nodup hnode' hnode hid
    rw [hsame]
  subst hkey
  rw [heq]
  obtain ⟨hperm, hkeys⟩ : (c.splice node).cacheList.Perm c.cacheList ∧
      (c.splice node).keys = use c.keys node.key :=
    splice_perm hnode hv.ids_nodup hv.keys_nodup
  have hmem : node.key ∈ (recent (uses.map CacheUse.key)).take c.capacity := by
    rw [← hv.keys_eq]
    exact List.mem_map_of_mem hnode
  exact
    { mapper_iff := fun key id => by
        show c.cacheMapper key = some id ↔ _
        rw [hv.mapper_iff key id]
        simp only [hperm.mem_iff]
      ids_nodup := (hperm.map _).nodup_iff.mpr hv.ids_nodup
      ids_lt := fun x hx => hv.ids_lt x (hperm.mem_iff.mp hx)
      keys_eq := by
        rw [hkeys, hv.keys_eq, List.map_append, List.map_singleton]
        show use _ node.key = List.take c.capacity (recent (uses.map CacheUse.key ++ [node.key]))
        rw [recent_append_singleton, take_use_of_mem hmem]
      created := fun x hx => List.mem_append_left _ (hv.created x (hperm.mem_iff.mp hx))
      hits := hv.hits.append_hit (hv.created node hnode) }

/-! ## Insertions -/

omit [DecidableEq K] in
theorem Linked.mapper_none (h : Linked c) {key : K} (hkey : key ∉ c.keys) : c.cacheMapper key = none := by
  cases hmap : c.cacheMapper key with
  | none => rfl
  | some id =>
    obtain ⟨node, hnode, -, rfl⟩ := (h.mapper_iff key id).mp hmap
    exact absurd (List.mem_map_of_mem hnode) hkey

/-- Invalidating an entry drops the last node and its key. -/
theorem Linked.evict (h : Linked c) (hkeys : c.keys.Nodup) :
    Linked c.evict ∧ c.evict.cacheList = c.cacheList.dropLast := by
  unfold LruPrimitiveCache.evict
  rcases List.eq_nil_or_concat c.cacheList with hnil | ⟨l, back, hback⟩
  · rw [hnil]
    exact ⟨h, hnil⟩
  rw [List.concat_eq_append] at hback
  unfold keys at hkeys
  rw [hback, List.map_append, List.map_singleton, List.nodup_append] at hkeys
  have hids := h.ids_nodup
  rw [hback, List.map_append, List.nodup_append] at hids
  have hlast : c.cacheList.getLast? = some back := by
    rw [hback]
    exact List.getLast?_concat
  have hdrop : c.cacheList.dropLast = l := by
    rw [hback]
    exact List.dropLast_concat
  rw [hlast]
  dsimp only
  refine ⟨?_, rfl⟩
  rw [hdrop]
  refine
    { mapper_iff := ?_
      ids_nodup := hids.1
      ids_lt := fun node hnode => h.ids_lt node (hback ▸ List.mem_append_left _ hnode) }
  intro key id
  dsimp only
  by_cases hkey : key = back.key
  · subst hkey
    rw [Function.update_self]
    constructor
    · intro hnone
      cases hnone
    · rintro ⟨node, hnode, -, hkey⟩
      exact absurd hkey (hkeys.2.2 _ (List.mem_map_of_mem hnode) _ List.mem_cons_self)
  · rw [Function.update_of_ne hkey, h.mapper_iff key id, hback]
    constructor
    · rintro ⟨node, hnode, hid, rfl⟩
      rcases List.mem_append.mp hnode with hnode | hnode
      · exact ⟨node, hnode, hid, rfl⟩
      · rw [List.mem_singleton.mp hnode] at hkey
        exact absurd rfl hkey
    · rintro ⟨node, hnode, hid, rfl⟩
      exact ⟨node, List.mem_append_left _ hnode, hid, rfl⟩

/-- A new node gets a number of its own. -/
theorem Linked.place (h : Linked c) {key : K} (hkey : key ∉ c.keys) (impl : V) :
    Linked (c.place key impl) := by
  have hnone := h.mapper_none hkey
  have hmapper : (c.place key impl).cacheMapper = Function.update c.cacheMapper key (some c.nextId) := by
    unfold LruPrimitiveCache.place
    rw [hnone]
    rfl
  refine { mapper_iff := ?_, ids_nodup := ?_, ids_lt := ?_ }
  · intro key' id
    rw [hmapper]
    show _ ↔ ∃ node ∈ (⟨c.nextId, key, impl⟩ : CacheNode K V) :: c.cacheList, _
    simp only [List.mem_cons, exists_eq_or_imp]
    by_cases hk : key' = key
    · subst hk
      rw [Function.update_self, Option.some.injEq]
      constructor
      · intro hid
        exact Or.inl ⟨hid, rfl⟩
      · rintro (⟨hid, -⟩ | ⟨node, hnode, -, rfl⟩)
        · exact hid
        · exact absurd (List.mem_map_of_mem hnode) hkey
    · rw [Function.update_of_ne hk, h.mapper_iff key' id]
      constructor
      · intro hnode
        exact Or.inr hnode
      · rintro (⟨-, heq⟩ | hnode)
        · exact absurd heq.symm hk
        · exact hnode
  · show (c.nextId :: c.cacheList.map CacheNode.id).Nodup
    rw [List.nodup_cons]
    refine ⟨?_, h.ids_nodup⟩
    intro hmem
    obtain ⟨node, hnode, hid⟩ := List.mem_map.mp hmem
    exact Nat.lt_irrefl _ (hid ▸ h.ids_lt node hnode)
  · intro node hnode
    show node.id < c.nextId + 1
    rcases List.mem_cons.mp hnode with rfl | hnode
    · exact Nat.lt_succ_self c.nextId
    · exact Nat.lt_succ_of_lt (h.ids_lt node hnode)

theorem capacity_evict (c : LruPrimitiveCache K V) : c.evict.capacity = c.capacity := by
  unfold evict
  cases c.cacheList.getLast? with
  | none => rfl
  | some back => rfl

/-- The list after an insertion into an enabled cache. -/
theorem Valid.add_spec (hv : c.Valid uses) {key : K} (hkey : key ∉ c.keys) (impl : V)
    (hcap : c.capacity ≠ 0) :
    Linked (c.add key impl) ∧ (c.add key impl).capacity = c.capacity ∧
      ∃ id, (c.add key impl).cacheList = ⟨id, key, impl⟩ :: c.cacheList.take (c.capacity - 1) := by
  unfold add
  rw [if_neg hcap]
  have hlen := hv.length_le
  split_ifs with hfull
  · obtain ⟨hlinked, hlist⟩ := hv.toLinked.evict hv.keys_nodup
    have htake : c.cacheList.dropLast = c.cacheList.take (c.capacity - 1) := by
      have heq : c.cacheList.length = c.capacity := Nat.le_antisymm hlen hfull
      rw [List.dropLast_eq_take, heq]
    have hkey' : key ∉ c.evict.keys := by
      unfold keys
      rw [hlist]
      exact fun hmem => hkey (((List.dropLast_sublist _).map _).subset hmem)
    refine ⟨hlinked.place hkey' impl, capacity_evict c, c.evict.nextId, ?_⟩
    show _ :: c.evict.cacheList = _
    rw [hlist, htake]
  · refine ⟨hv.toLinked.place hkey impl, rfl, c.nextId, ?_⟩
    show _ :: c.cacheList = _
    rw [List.take_of_length_le (by omega)]

/-- An insertion of a key that is not there keeps the cache valid. -/
theorem Valid.add (hv : c.Valid uses) {key : K} (hkey : key ∉ c.keys) (impl : V) :
    (c.add key impl).Valid (uses ++ [.create key impl]) := by
  by_cases hcap : c.capacity = 0
  · have hadd : c.add key impl = c := by
      unfold LruPrimitiveCache.add
      rw [if_pos hcap]
    have hkeys := hv.keys_eq
    rw [hcap, List.take_zero] at hkeys
    rw [hadd]
    exact
      { hv.toLinked with
        keys_eq := by rw [hcap, List.take_zero, hkeys]
        created := fun node hnode => List.mem_append_left _ (hv.created node hnode)
        hits := hv.hits.append_create key impl }
  · obtain ⟨hlinked, hcapacity, id, hlist⟩ := hv.add_spec hkey impl hcap
    refine
      { hlinked with
        keys_eq := ?_
        created := ?_
        hits := hv.hits.append_create key impl }
    · have hnew : key ∉ (recent (uses.map CacheUse.key)).take c.capacity := by
        rw [← hv.keys_eq]
        exact hkey
      rw [hcapacity, List.map_append, List.map_singleton]
      show (c.add key impl).keys = (recent (uses.map CacheUse.key ++ [key])).take c.capacity
      rw [recent_append_singleton, take_use_of_notMem hnew (Nat.pos_of_ne_zero hcap), ← hv.keys_eq]
      unfold keys
      rw [hlist, List.map_cons, List.map_take]
    · intro node hnode
      rw [hlist] at hnode
      rcases List.mem_cons.mp hnode with rfl | hnode
      · exact List.mem_append_right _ List.mem_cons_self
      · exact List.mem_append_left _ (hv.created node (List.mem_of_mem_take hnode))

/-! ## Keys that calls leave alone -/

theorem keys_add_subset (c : LruPrimitiveCache K V) (key : K) (impl : V) :
    ∀ k ∈ (c.add key impl).keys, k = key ∨ k ∈ c.keys := by
  intro k hk
  have hevict : ∀ k ∈ c.evict.keys, k ∈ c.keys := by
    intro k hk
    unfold evict at hk
    cases hlast : c.cacheList.getLast? with
    | none =>
      rw [hlast] at hk
      exact hk
    | some back =>
      rw [hlast] at hk
      exact ((List.dropLast_sublist _).map _).subset hk
  unfold add at hk
  split_ifs at hk
  · exact Or.inr hk
  · rcases List.mem_cons.mp hk with rfl | hk
    · exact Or.inl rfl
    · exact Or.inr (hevict k hk)
  · rcases List.mem_cons.mp hk with rfl | hk
    · exact Or.inl rfl
    · exact Or.inr hk

omit [DecidableEq K] in
theorem keys_get_subset (c : LruPrimitiveCache K V) (key : K) : ∀ k ∈ (c.get key).1.keys, k ∈ c.keys := by
  intro k hk
  cases hget : (c.get key).2 with
  | none => rwa [get_none hget] at hk
  | some v =>
    obtain ⟨node, hnode, -, -, heq⟩ := get_some hget
    rw [heq] at hk
    rcases List.mem_cons.mp hk with rfl | hk
    · exact List.mem_map_of_mem hnode
    · exact ((List.eraseP_sublist).map _).subset hk

end LruPrimitiveCache

open LruPrimitiveCache

/-! ## Calls -/

/-- Implementations of a higher level create those of a lower one. -/
def ImplInfo.level (i : ImplInfo) : ℕ :=
  match i.kind with
  | .concat | .sum | .layerNormalization | .deconvolution | .innerProduct | .rnn => 2
  | .reorder => if i.crossEngine then 1 else 0
  | _ => 0

theorem ImplInfo.level_of_reorder {i : ImplInfo} (h : i.kind = .reorder) : i.level ≤ 1 := by
  unfold level
  rw [h]
  dsimp only
  split_ifs
  · exact Nat.le_refl 1
  · exact Nat.zero_le 1

theorem ImplInfo.level_lt {i j : ImplInfo} (h : i.creates j = true) : j.level < i.level := by
  obtain ⟨kind, crossEngine⟩ := i
  cases kind with
  | concat => exact Nat.lt_succ_of_le (level_of_reorder (of_decide_eq_true h))
  | sum => exact Nat.lt_succ_of_le (level_of_reorder (of_decide_eq_true h))
  | layerNormalization => exact Nat.lt_succ_of_le (level_of_reorder (of_decide_eq_true h))
  | deconvolution =>
    have hj : j.level = 0 := by
      unfold level
      rw [of_decide_eq_true h]
    rw [hj]
    exact Nat.zero_lt_two
  | innerProduct =>
    have hj : j.level = 0 := by
      unfold level
      rw [of_decide_eq_true h]
    rw [hj]
    exact Nat.zero_lt_two
  | rnn =>
    have hj : j.level = 0 := by
      unfold level
      rw [of_decide_eq_true h]
    rw [hj]
    exact Nat.zero_lt_two
  | reorder =>
    unfold creates at h
    simp only [Bool.and_eq_true, decide_eq_true_eq, Bool.not_eq_true'] at h
    obtain ⟨⟨hcross, hkind⟩, hcross'⟩ := h
    unfold level
    rw [hkind, hcross, hcross']
    exact Nat.zero_lt_one
  | _ => cases h

theorem Call.wellNested_mk {info : K → ImplInfo} {key : K} {wrapper : Bool} {nested : List (Call K V)}
    {impl : Option V} :
    (Call.mk key wrapper nested impl).WellNested info ↔ Call.AllNested info key nested := by
  rw [Call.WellNested]

theorem Call.allNested_cons {info : K → ImplInfo} {key : K} {call : Call K V} {calls : List (Call K V)} :
    Call.AllNested info key (call :: calls) ↔
      (info key).creates (info call.key) = true ∧ call.WellNested info ∧
        Call.AllNested info key calls := by
  rw [Call.AllNested]

theorem Call.wellNested_of_allNested {info : K → ImplInfo} {key : K} {calls : List (Call K V)}
    (h : Call.AllNested info key calls) : ∀ call ∈ calls, call.WellNested info := by
  induction calls with
  | nil => simp
  | cons call calls ih =>
    obtain ⟨-, hcall, hrest⟩ := Call.allNested_cons.mp h
    intro call' hmem
    rcases List.mem_cons.mp hmem with rfl | hmem
    · exact hcall
    · exact ih hrest call' hmem

section Calls

variable [DecidableEq K] {c : LruPrimitiveCache K V} {key : K} {wrapper : Bool} {nested : List (Call K V)}
  {impl : Option V} {info : K → ImplInfo}

theorem getPrimitive_hit {v : V} (h : (c.get key).2 = some v) :
    getPrimitive c (.mk key wrapper nested impl) =
      ((c.get key).1, if wrapper then .hit v else .outOfMemory, [.hit key v]) := by
  rw [getPrimitive, h]

theorem getPrimitive_miss (h : (c.get key).2 = none) :
    getPrimitive c (.mk key wrapper nested impl) =
      match impl with
      | none => ((getPrimitives c nested).1, .failed, (getPrimitives c nested).2)
      | some v => ((getPrimitives c nested).1.add key v, .created v,
          (getPrimitives c nested).2 ++ [.create key v]) := by
  cases impl with
  | none => simp only [getPrimitive, h, get_none h]
  | some v => simp only [getPrimitive, h, get_none h]

theorem capacity_add (c : LruPrimitiveCache K V) (key : K) (v : V) :
    (c.add key v).capacity = c.capacity := by
  unfold LruPrimitiveCache.add
  split_ifs
  · rfl
  · exact capacity_evict c
  · rfl

omit [DecidableEq K] in
theorem capacity_get (c : LruPrimitiveCache K V) (key : K) : (c.get key).1.capacity = c.capacity := by
  cases hget : (c.get key).2 with
  | none => rw [get_none hget]
  | some v =>
    obtain ⟨node, -, -, -, heq⟩ := get_some hget
    rw [heq]
    rfl

mutual

theorem capacity_getPrimitive (c : LruPrimitiveCache K V) (call : Call K V) :
    (getPrimitive c call).1.capacity = c.capacity := by
  cases call with
  | mk key wrapper nested impl =>
    cases hget : (c.get key).2 with
    | some v =>
      rw [getPrimitive_hit hget]
      exact capacity_get c key
    | none =>
      have hnested := capacity_getPrimitives c nested
      rw [getPrimitive_miss hget]
      cases impl with
      | none => exact hnested
      | some v => exact (capacity_add _ key v).trans hnested

theorem capacity_getPrimitives (c : LruPrimitiveCache K V) (calls : List (Call K V)) :
    (getPrimitives c calls).1.capacity = c.capacity := by
  cases calls with
  | nil => rfl
  | cons call calls =>
    have hrest := capacity_getPrimitives (getPrimitive c call).1 calls
    rw [getPrimitives]
    exact hrest.trans (capacity_getPrimitive c call)

end

mutual

/-- Calls for keys of lower levels do not insert the key. -/
theorem keys_getPrimitive (c : LruPrimitiveCache K V) (call : Call K V) (hcall : call.WellNested info)
    (k : K) (hlevel : (info call.key).level < (info k).level) (hk : k ∉ c.keys) :
    k ∉ (getPrimitive c call).1.keys := by
  cases call with
  | mk key wrapper nested impl =>
    have hne : k ≠ key := by
      rintro rfl
      exact Nat.lt_irrefl _ hlevel
    cases hget : (c.get key).2 with
    | some v =>
      rw [getPrimitive_hit hget]
      exact fun hmem => hk (keys_get_subset c key k hmem)
    | none =>
      have hnested := keys_getPrimitives c nested key (Call.wellNested_mk.mp hcall) k
        (Nat.le_of_lt hlevel) hk
      rw [getPrimitive_miss hget]
      cases impl with
      | none => exact hnested
      | some v =>
        intro hmem
        rcases keys_add_subset _ key v k hmem with heq | hmem
        · exact hne heq
        · exact hnested hmem

theorem keys_getPrimitives (c : LruPrimitiveCache K V) (calls : List (Call K V)) (key : K)
    (hcalls : Call.AllNested info key calls) (k : K) (hlevel : (info key).level ≤ (info k).level)
    (hk : k ∉ c.keys) : k ∉ (getPrimitives c calls).1.keys := by
  cases calls with
  | nil => exact hk
  | cons call calls =>
    obtain ⟨hcreates, hcall, hrest⟩ := Call.allNested_cons.mp hcalls
    have hlt := Nat.lt_of_lt_of_le (ImplInfo.level_lt hcreates) hlevel
    have hfirst := keys_getPrimitive c call hcall k hlt hk
    exact keys_getPrimitives _ calls key hrest k hlevel hfirst

end

mutual

/-- A call keeps the cache valid. -/
theorem valid_getPrimitive (c : LruPrimitiveCache K V) (uses : List (CacheUse K V)) (hv : c.Valid uses)
    (call : Call K V) (hcall : call.WellNested info) :
    (getPrimitive c call).1.Valid (uses ++ (getPrimitive c call).2.2) := by
  cases call with
  | mk key wrapper nested impl =>
    cases hget : (c.get key).2 with
    | some v =>
      rw [getPrimitive_hit hget]
      exact hv.get_hit hget
    | none =>
      rw [Call.wellNested_mk] at hcall
      have hnested := valid_getPrimitives c uses hv nested (Call.wellNested_of_allNested hcall)
      have hkey := keys_getPrimitives c nested key hcall key (Nat.le_refl _) (hv.notMem_of_get_none hget)
      rw [getPrimitive_miss hget]
      cases impl with
      | none => exact hnested
      | some v =>
        show Valid _ (uses ++ (_ ++ [.create key v]))
        rw [← List.append_assoc]
        exact hnested.add hkey v

theorem valid_getPrimitives (c : LruPrimitiveCache K V) (uses : List (CacheUse K V)) (hv : c.Valid uses)
    (calls : List (Call K V)) (hcalls : ∀ call ∈ calls, call.WellNested info) :
    (getPrimitives c calls).1.Valid (uses ++ (getPrimitives c calls).2) := by
  cases calls with
  | nil =>
    rw [getPrimitives, List.append_nil]
    exact hv
  | cons call calls =>
    have hfirst := valid_getPrimitive c uses hv call (hcalls call List.mem_cons_self)
    have hrest := valid_getPrimitives _ _ hfirst calls
      fun call' hmem => hcalls call' (List.mem_cons_of_mem call hmem)
    rw [getPrimitives, ← List.append_assoc]
    exact hrest

end

/-- A hit returns an implementation that had been created for its key. -/
theorem getPrimitive_of_hit {uses : List (CacheUse K V)} (hv : c.Valid uses) {call : Call K V} {v : V}
    (h : (getPrimitive c call).2.1 = .hit v) : .create call.key v ∈ uses := by
  cases call with
  | mk key wrapper nested impl =>
    cases hget : (c.get key).2 with
    | some v' =>
      have hvalid := (hv.get_hit hget).hits uses [] key v' rfl
      rw [getPrimitive_hit hget] at h
      dsimp only at h
      split_ifs at h
      cases h
      exact hvalid
    | none =>
      rw [getPrimitive_miss hget] at h
      cases impl with
      | none => cases h
      | some v' => cases h

/-- A creation that fails leaves what the calls inside of it have left. -/
theorem getPrimitive_of_failed {call : Call K V} (h : (getPrimitive c call).2.1 = .failed) :
    ((getPrimitive c call).1, (getPrimitive c call).2.2) = getPrimitives c call.nested := by
  cases call with
  | mk key wrapper nested impl =>
    cases hget : (c.get key).2 with
    | some v =>
      rw [getPrimitive_hit hget] at h
      dsimp only at h
      split_ifs at h
    | none =>
      rw [getPrimitive_miss hget] at h ⊢
      cases impl with
      | none => rfl
      | some v => cases h

end Calls

end MklDnn
