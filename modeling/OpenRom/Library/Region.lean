import OpenRom.Library.Overwrite

/-!
# Regions of an array

Loads and stores at an offset. What a store leaves in other regions is what was there
(`load_store_of_apart`), and of stores to regions that do not overlap each is there after all of
them (`load_storeAll`).
-/

set_option autoImplicit false

namespace List

universe u

variable {α : Type u}

/-- The values in the region of a size at an offset. -/
def load (offset size : Nat) (memory : List α) : List α := (memory.drop offset).take size

/-- The array after values have been stored from an offset on. -/
def store (offset : Nat) (new memory : List α) : List α :=
  memory.take offset ++ overwrite new (memory.drop offset)

/-- Stores one after the other. -/
def storeAll (writes : List (Nat × List α)) (memory : List α) : List α :=
  writes.foldl (fun memory w => store w.1 w.2 memory) memory

/-- The regions do not overlap. -/
def Apart (offset size offset' size' : Nat) : Prop :=
  offset + size ≤ offset' ∨ offset' + size' ≤ offset

/-- Of regions one behind the other, any two are apart. -/
theorem apart_of_mem {β : Type u} {offset size : β → Nat} {l : List β}
    (h : l.Pairwise fun b b' => offset b + size b ≤ offset b') {b b' : β} (hb : b ∈ l)
    (hb' : b' ∈ l) (hne : b ≠ b') : Apart (offset b) (size b) (offset b') (size b') := by
  induction l with
  | nil => cases hb
  | cons c l ih =>
      obtain ⟨hc, hl⟩ := pairwise_cons.1 h
      rcases mem_cons.1 hb, mem_cons.1 hb' with ⟨heq | hmem, heq' | hmem'⟩
      · exact absurd (heq.trans heq'.symm) hne
      · exact heq ▸ Or.inl (hc b' hmem')
      · exact heq' ▸ Or.inr (hc b hmem)
      · exact ih hl hmem hmem'

theorem length_store {offset : Nat} {new memory : List α}
    (h : offset + new.length ≤ memory.length) :
    (store offset new memory).length = memory.length := by
  rw [store, length_append, length_take, length_overwrite (by rw [length_drop]; omega), length_drop]
  omega

theorem load_store_self {offset : Nat} {new memory : List α}
    (h : offset + new.length ≤ memory.length) :
    load offset new.length (store offset new memory) = new := by
  have hlen : (memory.take offset).length = offset := by
    rw [length_take]
    omega
  rw [load, store, drop_append, hlen, Nat.sub_self, drop_zero,
    drop_eq_nil_of_le (Nat.le_of_eq hlen), nil_append, overwrite, take_left']
  rfl

theorem load_store_of_length {offset size : Nat} {new memory : List α} (hsize : new.length = size)
    (h : offset + size ≤ memory.length) : load offset size (store offset new memory) = new := by
  subst hsize
  exact load_store_self h

theorem getElem?_store {offset : Nat} {new memory : List α}
    (h : offset + new.length ≤ memory.length) (i : Nat) :
    (store offset new memory)[i]? =
      if i < offset ∨ offset + new.length ≤ i then memory[i]? else new[i - offset]? := by
  have hlen : (memory.take offset).length = offset := by
    rw [length_take]
    omega
  rw [store, getElem?_append, hlen, overwrite, getElem?_append, getElem?_take, getElem?_drop,
    getElem?_drop]
  by_cases hi : i < offset
  · simp [hi]
  · by_cases hi' : i < offset + new.length
    · have hlt : i - offset < new.length := by omega
      simp [hi, hlt, Nat.not_le.2 hi']
    · have hge : ¬ i - offset < new.length := by omega
      have hsum : offset + (new.length + (i - offset - new.length)) = i := by omega
      simp [hi, hge, Nat.not_lt.1 hi', hsum]

theorem getElem?_load (offset size : Nat) (memory : List α) (i : Nat) :
    (load offset size memory)[i]? = if i < size then memory[offset + i]? else none := by
  rw [load, getElem?_take, getElem?_drop]

theorem load_add (offset size size' : Nat) (memory : List α) :
    load offset (size + size') memory =
      load offset size memory ++ load (offset + size) size' memory := by
  rw [load, take_add, drop_drop]
  rfl

/-- A store leaves other regions as they are. -/
theorem load_store_of_apart {offset size : Nat} {offset' : Nat} {new memory : List α}
    (h : Apart offset size offset' new.length) (hroom : offset' + new.length ≤ memory.length) :
    load offset size (store offset' new memory) = load offset size memory := by
  refine ext_getElem? fun i => ?_
  rw [getElem?_load, getElem?_load]
  by_cases hi : i < size
  · rw [if_pos hi, if_pos hi, getElem?_store hroom, if_pos]
    rcases h with h | h
    · exact Or.inl (by omega)
    · exact Or.inr (by omega)
  · rw [if_neg hi, if_neg hi]

/-- What a store leaves in a region around it depends on that region only. -/
theorem load_store_congr {offset size offset' : Nat} {new memory memory' : List α}
    (h : load offset size memory = load offset size memory')
    (hroom : offset' + new.length ≤ memory.length)
    (hroom' : offset' + new.length ≤ memory'.length) :
    load offset size (store offset' new memory) = load offset size (store offset' new memory') := by
  refine ext_getElem? fun i => ?_
  have hi : (load offset size memory)[i]? = (load offset size memory')[i]? := by rw [h]
  rw [getElem?_load, getElem?_load] at hi ⊢
  rw [getElem?_store hroom, getElem?_store hroom']
  by_cases hsize : i < size
  · rw [if_pos hsize, if_pos hsize] at hi ⊢
    rw [hi]
  · rw [if_neg hsize, if_neg hsize]

theorem load_take {offset size n : Nat} (h : offset + size ≤ n) (memory : List α) :
    load offset size (memory.take n) = load offset size memory := by
  rw [load, load, drop_take, take_take, Nat.min_eq_left (by omega)]

/-- Storing what is there changes nothing. -/
theorem store_load (offset size : Nat) (memory : List α) :
    store offset (load offset size memory) memory = memory := by
  have hrest : overwrite (load offset size memory) (memory.drop offset) = memory.drop offset := by
    rw [overwrite, load, length_take]
    generalize memory.drop offset = rest
    rcases Nat.le_total size rest.length with h | h
    · rw [Nat.min_eq_left h, take_append_drop]
    · rw [Nat.min_eq_right h, take_of_length_le h, drop_length, append_nil]
  rw [store, hrest, take_append_drop]

theorem storeAll_append (writes writes' : List (Nat × List α)) (memory : List α) :
    storeAll (writes ++ writes') memory = storeAll writes' (storeAll writes memory) := foldl_append

theorem length_storeAll {writes : List (Nat × List α)} {memory : List α}
    (h : ∀ w ∈ writes, w.1 + w.2.length ≤ memory.length) :
    (storeAll writes memory).length = memory.length := by
  induction writes generalizing memory with
  | nil => rfl
  | cons w ws ih =>
      obtain ⟨hw, hws⟩ := forall_mem_cons.1 h
      have hlen := length_store hw
      have hroom : ∀ w' ∈ ws, w'.1 + w'.2.length ≤ (store w.1 w.2 memory).length := fun w' hw' =>
        hlen.symm ▸ hws w' hw'
      exact (ih hroom).trans hlen

/-- Stores leave a region as it is that is apart from all of theirs. -/
theorem load_storeAll_of_apart {writes : List (Nat × List α)} {memory : List α} {offset size : Nat}
    (h : ∀ w ∈ writes, w.1 + w.2.length ≤ memory.length)
    (hapart : ∀ w ∈ writes, Apart offset size w.1 w.2.length) :
    load offset size (storeAll writes memory) = load offset size memory := by
  induction writes generalizing memory with
  | nil => rfl
  | cons w ws ih =>
      obtain ⟨hw, hws⟩ := forall_mem_cons.1 h
      obtain ⟨hwapart, hwsapart⟩ := forall_mem_cons.1 hapart
      have hlen := length_store hw
      have hroom : ∀ w' ∈ ws, w'.1 + w'.2.length ≤ (store w.1 w.2 memory).length := fun w' hw' =>
        hlen.symm ▸ hws w' hw'
      exact (ih hroom hwsapart).trans (load_store_of_apart hwapart hw)

/-- Of stores to regions that are apart, each is there after all of them. -/
theorem load_storeAll {writes : List (Nat × List α)} {memory : List α}
    (h : ∀ w ∈ writes, w.1 + w.2.length ≤ memory.length)
    (hpairwise : writes.Pairwise fun w w' => Apart w.1 w.2.length w'.1 w'.2.length) :
    ∀ w ∈ writes, load w.1 w.2.length (storeAll writes memory) = w.2 := by
  induction writes generalizing memory with
  | nil => exact nofun
  | cons w ws ih =>
      obtain ⟨hw, hws⟩ := forall_mem_cons.1 h
      obtain ⟨hapart, hpairwise⟩ := pairwise_cons.1 hpairwise
      have hlen := length_store hw
      have hroom : ∀ w' ∈ ws, w'.1 + w'.2.length ≤ (store w.1 w.2 memory).length := fun w' hw' =>
        hlen.symm ▸ hws w' hw'
      refine forall_mem_cons.2 ⟨?_, ih hroom hpairwise⟩
      exact (load_storeAll_of_apart hroom hapart).trans (load_store_self hw)

end List
