import PikaScript.Memory.Pool

/-! The cache of args of `dataArg.c` over the block pool (`PIKA_ARG_CACHE_ENABLE`,
`PIKA_POOL_ENABLE`).

An arg that is given back is kept in a cache if its block is of a middle size, and a
later arg that fits takes it. So the size of an arg's content is not that of its
block any more, and only `heap_size` tells what was allocated. `pikaFree` is called with
the size of the content: that is the wrong one for an arg from the cache that finds the
cache full. -/
namespace PikaScript

/-- An arg in memory: where it is, its `size` and its `heap_size`. -/
structure ArgBlock where
  mem : Nat
  size : Nat
  heapSize : Nat
deriving DecidableEq, Repr

/-- `g_PikaMemInfo`, the pool, and the args there are. -/
structure ArgMem where
  /-- The pool and what has been allocated from it. -/
  heap : Pool.Heap
  live : List ArgBlock
  /-- `cache_pool` up to `cache_pool_top`, the last one first. -/
  cachePool : List ArgBlock
  heapUsed : Nat
  /-- The calls of `pool_free` with another size than was allocated. -/
  wrongFrees : List Pool.Alloc
deriving DecidableEq, Repr

/-- `sizeof(Arg)`, with a `heap_size`. -/
def sizeofArgBlock : Nat := 32

/-- `mem_align`. -/
def memAlign (size : Nat) : Nat := (size + 3) / 4 * 4

/-- What an arg is charged in `heapUsed`. -/
def charge (size : Nat) : Nat := memAlign (sizeofArgBlock + size)

/-- The bounds of a cached block: `PIKA_ARG_CACHE_SIZE` is a sum without parentheses, and only
its first term is doubled. -/
def cacheSize : Nat := sizeofArgBlock + 16

def cacheSizeMax : Nat := 2 * sizeofArgBlock + 16

/-- `PIKA_ARG_CACHE_POOL_SIZE`. -/
def argCachePoolSize : Nat := 32

namespace ArgMem

/-- `mem_pool_init`. -/
def init (mem : Nat) (size : UInt32) (aline : UInt8) : ArgMem :=
  ⟨Pool.Heap.init mem size aline, [], [], 0, []⟩

variable (m : ArgMem)

/-- The pool has given a block of so many bytes, and they are charged. -/
def mallocAt (pool : Pool) (mem size : Nat) : ArgMem :=
  { m with
    heap := ⟨pool, ⟨mem, size⟩ :: m.heap.live⟩
    heapUsed := m.heapUsed + size }

/-- `pikaMalloc`; none when there is no room, where it does not return. -/
def pikaMalloc (size : Nat) : Option (Nat × ArgMem) :=
  (m.heap.pool.malloc (memAlign size)).1.map fun mem =>
    (mem, m.mallocAt (m.heap.pool.malloc (memAlign size)).2 mem (memAlign size))

/-- The pool has freed a block. It is what was allocated, or a wrong one. -/
def freeAt (pool : Pool) (mem size : Nat) : ArgMem :=
  { m with
    heap := ⟨pool, m.heap.live.erase ⟨mem, size⟩⟩
    wrongFrees :=
      if m.heap.live.contains ⟨mem, size⟩ then m.wrongFrees else m.wrongFrees ++ [⟨mem, size⟩] }

/-- `pika_user_free`. -/
def userFree (mem size : Nat) : ArgMem := m.freeAt (m.heap.pool.free mem size) mem size

/-- `pikaFree`. -/
def pikaFree (mem size : Nat) : ArgMem :=
  { m.userFree mem (memAlign size) with heapUsed := m.heapUsed - memAlign size }

/-- `_arg_cache_push`; none if the arg is not kept. -/
def cachePush (a : ArgBlock) : Option ArgMem :=
  if a.heapSize < cacheSize || cacheSizeMax < a.heapSize then none
  else if argCachePoolSize ≤ m.cachePool.length then none
  else some { m with cachePool := a :: m.cachePool, heapUsed := m.heapUsed - charge a.size }

/-- `_arg_cache_pop`. -/
def cachePop (size : Nat) : Option (ArgBlock × ArgMem) :=
  if cacheSize < charge size then none
  else match m.cachePool with
    | [] => none
    | a :: rest => some (a, { m with cachePool := rest, heapUsed := m.heapUsed + charge size })

/-- `arg_create_hash`: `_arg_set_hash` of no arg. None also for a size that is too large for a
`uint32_t` with the header. -/
def argCreate (size : Nat) : Option (ArgBlock × ArgMem) :=
  if 2 ^ 32 ≤ sizeofArgBlock + size + 3 then none
  else match m.cachePop size with
    | some (a, m) =>
      let a : ArgBlock := { a with size := size }
      some (a, { m with live := a :: m.live })
    | none => do
      let (mem, m) ← m.pikaMalloc (sizeofArgBlock + size)
      let a : ArgBlock := ⟨mem, size, charge size⟩
      return (a, { m with live := a :: m.live })

/-- `arg_freeContent`. -/
def freeContent (a : ArgBlock) : ArgMem :=
  let m := { m with live := m.live.erase a }
  match m.cachePush a with
  | some m => m
  | none => m.pikaFree a.mem (sizeofArgBlock + a.size)

/-- `arg_setContent` of a live arg: a larger content takes a new one. -/
def argSetContent (a : ArgBlock) (size : Nat) : Option ArgMem :=
  if size ≤ a.size then some m
  else do
    let (_, m) ← m.argCreate size
    return m.freeContent a

/-- `arg_set` of a live arg. The caller has the new arg then, and the old one no more. -/
def argSet (a : ArgBlock) (size : Nat) : Option ArgMem :=
  if size ≤ a.size then some m
  else do
    let (_, m) ← m.argCreate size
    return { m with live := m.live.erase a }

/-- `arg_append` of so many bytes, in place if the block is larger than it has to be. -/
def argAppend (a : ArgBlock) (newSize : Nat) : Option ArgMem :=
  if charge (a.size + newSize) < a.heapSize then
    some { m with
      live := { a with size := a.size + newSize } :: m.live.erase a
      heapUsed := m.heapUsed + (charge (a.size + newSize) - charge a.size) }
  else do
    let (_, m) ← m.argCreate (a.size + newSize)
    return m.freeContent a

/-- `_mem_cache_deinit`: every cached block is freed with the size 0. -/
def cacheDeinit : List ArgBlock → ArgMem → ArgMem
  | [], m => { m with cachePool := [] }
  | a :: rest, m => cacheDeinit rest (m.userFree a.mem 0)

end ArgMem

/-- A call, on an arg by its address. -/
inductive ArgCall where
  | create (size : Nat)
  | setContent (mem size : Nat)
  | set (mem size : Nat)
  | append (mem newSize : Nat)
  | free (mem : Nat)
  | cacheDeinit
deriving DecidableEq, Repr

namespace ArgMem

/-- The live arg at an address. -/
def argAt (m : ArgMem) (mem : Nat) : Option ArgBlock := m.live.find? fun a => a.mem == mem

/-- Calls on args that are live. -/
def machine : Machine ArgCall ArgMem Unit where
  step
    | .create size, m => (m.argCreate size).map fun e => (e.2, ())
    | .setContent mem size, m => do
      let a ← m.argAt mem
      let m ← m.argSetContent a size
      return (m, ())
    | .set mem size, m => do
      let a ← m.argAt mem
      let m ← m.argSet a size
      return (m, ())
    | .append mem newSize, m => do
      let a ← m.argAt mem
      let m ← m.argAppend a newSize
      return (m, ())
    | .free mem, m => do
      let a ← m.argAt mem
      return (m.freeContent a, ())
    | .cacheDeinit, m => some (m.cacheDeinit m.cachePool, ())

/-- What was allocated for an arg. -/
def alloc (a : ArgBlock) : Pool.Alloc := ⟨a.mem, a.heapSize⟩

/-- **What is claimed**: the used blocks are those of the live and the cached args, each in its
own, every `pool_free` was of the size that was allocated, and `heapUsed` is what the live args
are charged. -/
structure Lawful (m : ArgMem) : Prop where
  used : ∀ i, m.heap.pool.bitmap.get i = true ↔
    ∃ a ∈ m.live ++ m.cachePool, i ∈ m.heap.pool.blocks (alloc a)
  apart : m.live.Pairwise fun a b => m.heap.pool.Apart (alloc a) (alloc b)
  fits : ∀ a ∈ m.live, charge a.size ≤ a.heapSize
  wrongFrees : m.wrongFrees = []
  heapUsed : m.heapUsed = (m.live.map fun a => charge a.size).sum

/-- The arg goes to the cache, or is freed with the right size. -/
def FreesRight (m : ArgMem) (a : ArgBlock) : Prop :=
  charge a.size = a.heapSize ∨ m.cachePool.length < argCachePoolSize

/-- When a call keeps the law: it frees no arg from the cache while the cache is full, does not
`arg_set` a larger content, and drops no cached block. A new arg of a small size makes room in
the cache before the old one is freed. -/
def KeepsLaw (m : ArgMem) : ArgCall → Prop
  | .create _ => True
  | .setContent mem size =>
    ∀ a ∈ m.argAt mem, a.size < size → m.FreesRight a ∨ charge size ≤ cacheSize
  | .set mem size => ∀ a ∈ m.argAt mem, size ≤ a.size
  | .append mem newSize =>
    ∀ a ∈ m.argAt mem, a.heapSize ≤ charge (a.size + newSize) →
      m.FreesRight a ∨ charge (a.size + newSize) ≤ cacheSize
  | .free mem => ∀ a ∈ m.argAt mem, m.FreesRight a
  | .cacheDeinit => m.cachePool = []

instance (m : ArgMem) (a : ArgBlock) : Decidable (m.FreesRight a) :=
  inferInstanceAs (Decidable (_ ∨ _))

instance (m : ArgMem) : ∀ call, Decidable (m.KeepsLaw call)
  | .create _ => .isTrue trivial
  | .setContent _ _ | .append _ _ | .set _ _ | .free _ =>
    inferInstanceAs (Decidable (∀ a ∈ m.argAt _, _))
  | .cacheDeinit => inferInstanceAs (Decidable (_ = _))

/-! ### The invariant -/

end ArgMem

/-- `_arg_cache_push` takes blocks of this size. -/
def ArgBlock.Cacheable (a : ArgBlock) : Prop :=
  cacheSize ≤ a.heapSize ∧ a.heapSize ≤ cacheSizeMax

/-- The content is in the block, and fills it unless the block can be cached. -/
structure ArgBlock.Sized (a : ArgBlock) : Prop where
  fits : charge a.size ≤ a.heapSize
  heapSize_lt : a.heapSize < 2 ^ 32
  fills : charge a.size = a.heapSize ∨ a.Cacheable

namespace ArgMem

/-- The invariant of a run: the pool has a block for every arg, live or cached, and no other. -/
structure Inv (m : ArgMem) : Prop where
  heap : m.heap.Inv
  exact : m.heap.Exact
  perm : m.heap.live.Perm ((m.live ++ m.cachePool).map alloc)
  sized : ∀ a ∈ m.live ++ m.cachePool, a.Sized
  cacheable : ∀ a ∈ m.cachePool, a.Cacheable
  length_le : m.cachePool.length ≤ argCachePoolSize
  heapUsed : m.heapUsed = (m.live.map fun a => charge a.size).sum
  wrongFrees : m.wrongFrees = []

theorem inv_init (mem : Nat) (size : UInt32) {aline : UInt8} (h : 2 ≤ aline.toNat) :
    (init mem size aline).Inv where
  heap := Pool.Heap.inv_init mem size h
  exact := Pool.Heap.exact_init mem size aline
  perm := List.Perm.nil
  sized _ ha := absurd ha List.not_mem_nil
  cacheable _ ha := absurd ha List.not_mem_nil
  length_le := Nat.zero_le _
  heapUsed := rfl
  wrongFrees := rfl

theorem Inv.lawful {m : ArgMem} (h : m.Inv) : m.Lawful where
  used i := by
    constructor
    · intro hi
      obtain ⟨b, hb, hin⟩ := h.exact i hi
      obtain ⟨a, ha, rfl⟩ := List.mem_map.mp (h.perm.mem_iff.mp hb)
      exact ⟨a, ha, hin⟩
    · intro ⟨a, ha, hin⟩
      exact h.heap.lawful.used _ (h.perm.mem_iff.mpr (List.mem_map_of_mem ha)) i hin
  apart := by
    have hpair := h.heap.apart.perm h.perm Pool.Apart.symm
    rw [List.map_append, List.pairwise_append] at hpair
    exact List.pairwise_map.mp hpair.1
  fits a ha := (h.sized a (List.mem_append_left _ ha)).fits
  wrongFrees := h.wrongFrees
  heapUsed := h.heapUsed

/-! ### Creation -/

theorem charge_pos (size : Nat) : 0 < charge size := by
  unfold charge memAlign sizeofArgBlock
  omega

theorem charge_lt {size : Nat} (h : ¬2 ^ 32 ≤ sizeofArgBlock + size + 3) :
    charge size < 2 ^ 32 := by
  have hle : charge size ≤ sizeofArgBlock + size + 3 := Nat.div_mul_le_self _ 4
  omega

@[simp] theorem mallocAt_live (m : ArgMem) (pool : Pool) (mem size : Nat) :
    (m.mallocAt pool mem size).live = m.live := rfl

@[simp] theorem mallocAt_cachePool (m : ArgMem) (pool : Pool) (mem size : Nat) :
    (m.mallocAt pool mem size).cachePool = m.cachePool := rfl

theorem eq_mk_of_fst {α β : Type} {r : α × β} {a : α} (h : r.1 = a) : r = (a, r.2) :=
  Prod.ext h rfl

theorem pikaMalloc_eq_some {m m' : ArgMem} {size mem : Nat}
    (h : m.pikaMalloc size = some (mem, m')) :
    ∃ pool, m.heap.pool.malloc (memAlign size) = (some mem, pool) ∧
      m' = m.mallocAt pool mem (memAlign size) := by
  unfold ArgMem.pikaMalloc at h
  obtain ⟨mem', hmem, heq⟩ := Option.map_eq_some_iff.mp h
  cases heq
  exact ⟨_, eq_mk_of_fst hmem, rfl⟩

/-- The pool gives a new block as to a caller of its own. -/
theorem malloc_step {h : Pool.Heap} {size mem : Nat} {pool : Pool} (hpos : 0 < size)
    (hlt : size < 2 ^ 32) (hpool : h.pool.malloc size = (some mem, pool)) :
    Pool.machine.step (.malloc (UInt32.ofNat size)) h =
      some (⟨pool, ⟨mem, size⟩ :: h.live⟩, some mem) := by
  have hnat : (UInt32.ofNat size).toNat = size := by
    rw [UInt32.toNat_ofNat']
    exact Nat.mod_eq_of_lt hlt
  have hne : UInt32.ofNat size ≠ 0 := by
    intro h0
    rw [h0] at hnat
    exact hpos.ne hnat
  simp only [Pool.machine]
  rw [if_neg hne, hnat, hpool]

/-- A new arg in a new block. -/
theorem Inv.mallocAt {m : ArgMem} {pool : Pool} {a : ArgBlock} (h : m.Inv)
    (ha : charge a.size = a.heapSize) (hlt : a.heapSize < 2 ^ 32)
    (hpool : m.heap.pool.malloc a.heapSize = (some a.mem, pool)) :
    Inv { m.mallocAt pool a.mem a.heapSize with live := a :: m.live } := by
  have hpos : 0 < a.heapSize := ha ▸ charge_pos a.size
  have hstep := malloc_step hpos hlt hpool
  refine ⟨h.heap.malloc hstep, h.heap.exact_malloc h.exact hstep, h.perm.cons _, ?_, h.cacheable,
    h.length_le, ?_, h.wrongFrees⟩
  · intro b hb
    rcases List.mem_cons.mp hb with rfl | hb
    · exact ⟨ha.le, hlt, .inl ha⟩
    · exact h.sized b hb
  · simp only [List.map_cons, List.sum_cons, ArgMem.mallocAt, h.heapUsed, ha]
    exact Nat.add_comm _ _

/-- The cached block that is taken becomes a live arg's. -/
theorem Inv.cachePop {m m' : ArgMem} {size : Nat} {a : ArgBlock} (h : m.Inv)
    (hm : m.cachePop size = some (a, m')) :
    Inv { m' with live := { a with size := size } :: m'.live } ∧ m'.live = m.live ∧
      m.cachePool = a :: m'.cachePool ∧ charge size ≤ cacheSize := by
  unfold ArgMem.cachePop at hm
  split at hm
  · cases hm
  · rename_i hsize
    cases hcache : m.cachePool with
    | nil =>
      rw [hcache] at hm
      cases hm
    | cons c rest =>
      rw [hcache] at hm
      cases hm
      have hc : a ∈ m.cachePool := hcache ▸ List.mem_cons_self
      have hcacheable := h.cacheable a hc
      have hsized := h.sized a (List.mem_append_right _ hc)
      have hlength := h.length_le
      rw [hcache, List.length_cons] at hlength
      refine ⟨⟨h.heap, h.exact, ?_, ?_, ?_, (Nat.le_succ _).trans hlength, ?_, h.wrongFrees⟩,
        rfl, rfl, Nat.le_of_not_lt hsize⟩
      · refine h.perm.trans ?_
        rw [hcache]
        exact (List.perm_middle (a := a)).map alloc
      · intro b hb
        rcases List.mem_cons.mp hb with rfl | hb
        · exact ⟨(Nat.le_of_not_lt hsize).trans hcacheable.1, hsized.heapSize_lt, .inr hcacheable⟩
        · refine h.sized b (List.mem_append.mpr ?_)
          rw [hcache]
          exact (List.mem_append.mp hb).imp_right (List.mem_cons_of_mem a)
      · intro b hb
        exact h.cacheable b (hcache ▸ List.mem_cons_of_mem _ hb)
      · simp only [List.map_cons, List.sum_cons, h.heapUsed]
        exact Nat.add_comm _ _

/-- **A new arg** is live, and the others are as they were. One that is small is taken from the
cache if there is one. -/
theorem Inv.argCreate {m m' : ArgMem} {size : Nat} {a : ArgBlock} (h : m.Inv)
    (hm : m.argCreate size = some (a, m')) :
    m'.Inv ∧ m'.live = a :: m.live ∧ m'.cachePool.length ≤ m.cachePool.length ∧
      (charge size ≤ cacheSize → m'.cachePool.length ≤ m.cachePool.length - 1) := by
  unfold ArgMem.argCreate at hm
  split at hm
  · cases hm
  · rename_i hlt
    split at hm
    · rename_i c m₁ hpop
      cases hm
      obtain ⟨hinv, hlive, hcache, -⟩ := h.cachePop hpop
      refine ⟨hinv, congrArg _ hlive, ?_, fun _ => ?_⟩
      · simp [hcache]
      · simp [hcache]
    · rename_i hpop
      obtain ⟨⟨mem, m₁⟩, hmalloc, hm⟩ := Option.bind_eq_some_iff.mp hm
      obtain ⟨pool, hpool, rfl⟩ := pikaMalloc_eq_some hmalloc
      cases hm
      refine ⟨h.mallocAt (a := ⟨mem, size, charge size⟩) rfl (charge_lt hlt) hpool, rfl,
        le_rfl, fun hsize => ?_⟩
      have hempty : m.cachePool = [] := by
        unfold ArgMem.cachePop at hpop
        rw [if_neg (Nat.not_lt.mpr hsize)] at hpop
        split at hpop
        · assumption
        · cases hpop
      simp [hempty]

/-! ### Freeing -/

theorem cachePush_eq_some {m m' : ArgMem} {a : ArgBlock} (h : m.cachePush a = some m') :
    a.Cacheable ∧ m.cachePool.length < argCachePoolSize ∧
      m' = { m with cachePool := a :: m.cachePool, heapUsed := m.heapUsed - charge a.size } := by
  unfold ArgMem.cachePush at h
  split at h
  · cases h
  · rename_i hsize
    split at h
    · cases h
    · rename_i hlength
      cases h
      simp only [Bool.or_eq_true, decide_eq_true_eq, not_or, Nat.not_lt] at hsize
      exact ⟨hsize, Nat.lt_of_not_le hlength, rfl⟩

theorem cachePush_eq_none {m : ArgMem} {a : ArgBlock} (h : m.cachePush a = none) :
    ¬a.Cacheable ∨ argCachePoolSize ≤ m.cachePool.length := by
  unfold ArgMem.cachePush at h
  split at h
  · rename_i hsize
    refine .inl fun hc => ?_
    simp only [Bool.or_eq_true, decide_eq_true_eq] at hsize
    exact hsize.elim (Nat.not_lt.mpr hc.1) (Nat.not_lt.mpr hc.2)
  · split at h
    · exact .inr ‹_›
    · cases h

/-- The pool takes a block back as from a caller of its own. -/
theorem free_step {h : Pool.Heap} {size mem : Nat} (hlt : size < 2 ^ 32)
    (hlive : ⟨mem, size⟩ ∈ h.live) :
    Pool.machine.step (.free mem (UInt32.ofNat size)) h =
      some (⟨h.pool.free mem size, h.live.erase ⟨mem, size⟩⟩, none) := by
  have hnat : (UInt32.ofNat size).toNat = size := by
    rw [UInt32.toNat_ofNat']
    exact Nat.mod_eq_of_lt hlt
  simp only [Pool.machine]
  rw [hnat, if_pos hlive]

@[simp] theorem freeAt_heap_live (m : ArgMem) (pool : Pool) (mem size : Nat) :
    (m.freeAt pool mem size).heap.live = m.heap.live.erase ⟨mem, size⟩ := rfl

@[simp] theorem freeAt_cachePool (m : ArgMem) (pool : Pool) (mem size : Nat) :
    (m.freeAt pool mem size).cachePool = m.cachePool := rfl

/-- What the live args are charged, without one of them. -/
theorem Inv.heapUsed_erase {m : ArgMem} {a : ArgBlock} (h : m.Inv) (ha : a ∈ m.live) :
    m.heapUsed = charge a.size + ((m.live.erase a).map fun a => charge a.size).sum := by
  have hperm := (List.perm_cons_erase ha).map fun a => charge a.size
  rw [h.heapUsed, hperm.sum_nat]
  simp

theorem pikaFree_eq {m : ArgMem} {pool : Pool} {mem size n : Nat} (hsize : memAlign size = n)
    (hpool : m.heap.pool.free mem n = pool) :
    m.pikaFree mem size = { m.freeAt pool mem n with heapUsed := m.heapUsed - n } := by
  rw [← hpool, ← hsize, ArgMem.pikaFree, userFree]

/-- An arg whose content fills its block is freed with the size of that. -/
theorem Inv.freeAt {m : ArgMem} {a : ArgBlock} {pool : Pool} (h : m.Inv) (ha : a ∈ m.live)
    (hfills : charge a.size = a.heapSize) (hpool : m.heap.pool.free a.mem a.heapSize = pool) :
    Inv { m.freeAt pool a.mem a.heapSize with
      live := m.live.erase a, heapUsed := m.heapUsed - a.heapSize } := by
  have hmem : alloc a ∈ m.heap.live :=
    h.perm.mem_iff.mpr (List.mem_map_of_mem (List.mem_append_left _ ha))
  have hstep := free_step (h.sized a (List.mem_append_left _ ha)).heapSize_lt hmem
  rw [hpool] at hstep
  have hothers : ∀ b ∈ m.live.erase a ++ m.cachePool, b ∈ m.live ++ m.cachePool := by
    intro b hb
    rcases List.mem_append.mp hb with hb | hb
    · exact List.mem_append_left _ (List.mem_of_mem_erase hb)
    · exact List.mem_append_right _ hb
  refine ⟨h.heap.free hstep, h.heap.exact_free h.exact hstep, ?_,
    fun b hb => h.sized b (hothers b hb), h.cacheable, h.length_le, ?_, ?_⟩
  · have hperm := (h.perm.trans
      (((List.perm_cons_erase ha).append_right m.cachePool).map alloc)).erase (alloc a)
    simpa [alloc] using hperm
  · have hsum := h.heapUsed_erase ha
    simp only
    omega
  · simp only [ArgMem.freeAt]
    rw [if_pos (by simpa [alloc] using hmem)]
    exact h.wrongFrees

/-- **An arg that is given back** goes to the cache, or to the pool with the size it was allocated
with. -/
theorem Inv.freeContent {m : ArgMem} {a : ArgBlock} (h : m.Inv) (ha : a ∈ m.live)
    (hright : m.FreesRight a) : (m.freeContent a).Inv := by
  unfold ArgMem.freeContent
  dsimp only
  split
  · rename_i m' hpush
    obtain ⟨hcacheable, hlength, rfl⟩ := cachePush_eq_some hpush
    have hperm : (m.live.erase a ++ a :: m.cachePool).Perm (m.live ++ m.cachePool) :=
      List.perm_middle.trans ((List.perm_cons_erase ha).symm.append_right _)
    refine ⟨h.heap, h.exact, h.perm.trans (hperm.map alloc).symm,
      fun b hb => h.sized b (hperm.mem_iff.mp hb), ?_, hlength, ?_, h.wrongFrees⟩
    · intro b hb
      rcases List.mem_cons.mp hb with rfl | hb
      · exact hcacheable
      · exact h.cacheable b hb
    · have hsum := h.heapUsed_erase ha
      simp only
      omega
  · rename_i hpush
    have hfills : charge a.size = a.heapSize := by
      rcases cachePush_eq_none hpush with hn | hfull
      · exact (h.sized a (List.mem_append_left _ ha)).fills.resolve_right hn
      · exact hright.resolve_right (Nat.not_lt.mpr hfull)
    rw [pikaFree_eq hfills rfl]
    exact h.freeAt ha hfills rfl

/-! ### Calls -/

/-- An arg gives way to a new one of so many bytes. -/
theorem Inv.renew {m m' : ArgMem} {a b : ArgBlock} {size : Nat} (h : m.Inv) (ha : a ∈ m.live)
    (hm : m.argCreate size = some (b, m'))
    (hright : m.FreesRight a ∨ charge size ≤ cacheSize) : (m'.freeContent a).Inv := by
  obtain ⟨hinv, hlive, hcache, hroom⟩ := h.argCreate hm
  refine hinv.freeContent (hlive ▸ List.mem_cons_of_mem _ ha) ?_
  by_cases hfills : charge a.size = a.heapSize
  · exact .inl hfills
  · refine .inr ?_
    rcases hright with hright | hsize
    · exact hcache.trans_lt (hright.resolve_left hfills)
    · have hle := h.length_le
      have hlt := hroom hsize
      have hpos : 0 < argCachePoolSize := by decide
      omega

theorem charge_mono {size size' : Nat} (h : size ≤ size') : charge size ≤ charge size' := by
  unfold charge memAlign
  omega

/-- An arg grows in its block. -/
theorem Inv.grow {m : ArgMem} {a : ArgBlock} {size : Nat} (h : m.Inv) (ha : a ∈ m.live)
    (hle : a.size ≤ size) (hlt : charge size < a.heapSize) :
    Inv { m with
      live := { a with size := size } :: m.live.erase a
      heapUsed := m.heapUsed + (charge size - charge a.size) } := by
  have hcharge := charge_mono hle
  have hperm := (List.perm_cons_erase ha).append_right m.cachePool
  have hsized := h.sized a (List.mem_append_left _ ha)
  refine ⟨h.heap, h.exact, h.perm.trans (hperm.map alloc), ?_, h.cacheable, h.length_le, ?_,
    h.wrongFrees⟩
  · intro b hb
    rcases List.mem_cons.mp hb with rfl | hb
    · refine ⟨hlt.le, hsized.heapSize_lt, .inr (hsized.fills.resolve_left ?_)⟩
      exact (hcharge.trans_lt hlt).ne
    · exact h.sized b (hperm.mem_iff.mpr (List.mem_cons_of_mem _ hb))
  · have hsum := h.heapUsed_erase ha
    simp only [List.map_cons, List.sum_cons]
    omega

theorem mem_of_argAt {m : ArgMem} {mem : Nat} {a : ArgBlock} (h : m.argAt mem = some a) :
    a ∈ m.live :=
  List.mem_of_find?_eq_some h

/-- **One call keeps the invariant**, if it is one that keeps the law. -/
theorem Inv.step {m m' : ArgMem} {call : ArgCall} {o : Unit} (hkeeps : m.KeepsLaw call)
    (h : m.Inv) (hstep : machine.step call m = some (m', o)) : m'.Inv := by
  cases call with
  | create size =>
    obtain ⟨⟨a, m₁⟩, hm, heq⟩ := Option.map_eq_some_iff.mp hstep
    cases heq
    exact (h.argCreate hm).1
  | setContent mem size =>
    obtain ⟨a, hat, hstep⟩ := Option.bind_eq_some_iff.mp hstep
    obtain ⟨m₁, hset, heq⟩ := Option.bind_eq_some_iff.mp hstep
    cases heq
    unfold argSetContent at hset
    split at hset
    · cases hset
      exact h
    · obtain ⟨⟨b, m₂⟩, hm, heq⟩ := Option.bind_eq_some_iff.mp hset
      cases heq
      exact h.renew (mem_of_argAt hat) hm (hkeeps a hat (Nat.lt_of_not_le ‹_›))
  | set mem size =>
    obtain ⟨a, hat, hstep⟩ := Option.bind_eq_some_iff.mp hstep
    obtain ⟨m₁, hset, heq⟩ := Option.bind_eq_some_iff.mp hstep
    cases heq
    unfold argSet at hset
    rw [if_pos (hkeeps a hat)] at hset
    cases hset
    exact h
  | append mem newSize =>
    obtain ⟨a, hat, hstep⟩ := Option.bind_eq_some_iff.mp hstep
    obtain ⟨m₁, happend, heq⟩ := Option.bind_eq_some_iff.mp hstep
    cases heq
    unfold argAppend at happend
    split at happend
    · cases happend
      exact h.grow (mem_of_argAt hat) (Nat.le_add_right _ _) ‹_›
    · obtain ⟨⟨b, m₂⟩, hm, heq⟩ := Option.bind_eq_some_iff.mp happend
      cases heq
      exact h.renew (mem_of_argAt hat) hm (hkeeps a hat (Nat.le_of_not_lt ‹_›))
  | free mem =>
    obtain ⟨a, hat, heq⟩ := Option.bind_eq_some_iff.mp hstep
    cases heq
    exact h.freeContent (mem_of_argAt hat) (hkeeps a hat)
  | cacheDeinit =>
    have hempty : m.cachePool = [] := hkeeps
    cases hstep
    rw [hempty, cacheDeinit]
    exact ⟨h.heap, h.exact, hempty ▸ h.perm, by simpa [hempty] using h.sized, by simp,
      Nat.zero_le _, h.heapUsed, h.wrongFrees⟩

/-! ### Runs -/

/-- **The args and the pool agree after every run** whose calls keep the law. -/
theorem run_agrees (mem : Nat) (size : UInt32) (aline : UInt8) (haline : 2 ≤ aline.toNat)
    (calls : List ArgCall) (m : ArgMem) (os : List Unit)
    (hkeeps : machine.Meets (fun call m => m.KeepsLaw call) (init mem size aline) calls)
    (hrun : machine.run (init mem size aline) calls = some (m, os)) : m.Lawful :=
  (machine.run_invariant_of_meets (fun _ _ _ _ hC hs hstep => hs.step hC hstep)
    (inv_init mem size haline) hkeeps hrun).lawful

/-- A block goes to the cache and to a smaller arg, which grows in it. -/
theorem run_agrees_grow :
    ArgMem.Lawful ⟨⟨⟨[0xFF, 0x3F, 0], 1000, 4, 96, 0, 14⟩, [⟨1000, 56⟩]⟩, [⟨1000, 12, 56⟩], [],
      44, []⟩ :=
  run_agrees 1000 96 4 (by decide) [.create 24, .free 1000, .create 0, .append 1000 12] _
    [(), (), (), ()] (by decide +kernel) (by decide +kernel)

/-- Thirty-three args of 56 bytes; the block of the first one is cached and taken by an arg of 32
bytes, the others fill the cache, and then that arg is freed. -/
def fullCacheCalls : List ArgCall :=
  List.replicate 33 (.create 24) ++ [.free 1000, .create 0] ++
    (List.range 32).map (fun i => .free (1056 + 56 * i)) ++ [.free 1000]

/-- The block of 56 bytes is freed as one of 32. -/
theorem not_agrees :
    ¬∀ (mem : Nat) (size : UInt32) (aline : UInt8), 2 ≤ aline.toNat →
      ∀ (calls : List ArgCall) (m : ArgMem) (os : List Unit),
        machine.run (init mem size aline) calls = some (m, os) → m.Lawful := by
  intro hall
  have hrun : (machine.run (init 1000 2048 4) fullCacheCalls).map (·.1.wrongFrees) =
      some [⟨1000, 32⟩] := by decide +kernel
  obtain ⟨⟨m, os⟩, hm, hwrong⟩ := Option.map_eq_some_iff.mp hrun
  have hlawful := hall 1000 2048 4 (by decide) _ m os hm
  rw [hlawful.wrongFrees] at hwrong
  cases hwrong

end ArgMem

end PikaScript
