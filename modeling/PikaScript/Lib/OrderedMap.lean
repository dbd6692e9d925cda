import PikaScript.Lib.KeyedList

/-! Maps whose entries have an order.

A new entry goes in front, and one that is there keeps its place when it takes a
new value. No key has two entries. -/

/-- The entries in their order. -/
structure OrderedMap (K V : Type) where
  entries : List (K × V)
  nodup : (entries.map Prod.fst).Nodup

namespace OrderedMap
variable {K V : Type} [DecidableEq K] (m : OrderedMap K V) (k : K) (v : V)

def empty : OrderedMap K V := ⟨[], List.nodup_nil⟩

def keys : List K := m.entries.map Prod.fst

def size : Nat := m.entries.length

def find : Option V := (KeyedList.lookup Prod.fst k m.entries).map Prod.snd

/-- The entry of the key takes the value in its place. -/
def replace : OrderedMap K V where
  entries := m.entries.map fun e => if e.1 = k then (k, v) else e
  nodup := by
    have hkeys : (m.entries.map fun e => if e.1 = k then (k, v) else e).map Prod.fst = m.keys := by
      rw [List.map_map]
      refine List.map_congr_left fun e _ => ?_
      rw [Function.comp_apply]
      split
      · exact (‹e.1 = k› : e.1 = k).symm
      · rfl
    rw [hkeys]
    exact m.nodup

/-- The entry of the key takes the value, or there is a new entry in front. -/
def put : OrderedMap K V :=
  if h : k ∈ m.keys then m.replace k v else ⟨(k, v) :: m.entries, List.nodup_cons.mpr ⟨h, m.nodup⟩⟩

/-- The entries but that of the key. -/
def delete : OrderedMap K V where
  entries := m.entries.filter fun e => e.1 ≠ k
  nodup := m.nodup.sublist (List.filter_sublist.map _)

def reverse : OrderedMap K V where
  entries := m.entries.reverse
  nodup := by
    rw [List.map_reverse]
    exact List.nodup_reverse.mpr m.nodup

variable {m k v}

theorem entries_put_of_mem (h : k ∈ m.keys) :
    (m.put k v).entries = m.entries.map fun e => if e.1 = k then (k, v) else e := by
  rw [put, dif_pos h]
  rfl

theorem entries_put_of_not_mem (h : k ∉ m.keys) : (m.put k v).entries = (k, v) :: m.entries := by
  rw [put, dif_neg h]

end OrderedMap
