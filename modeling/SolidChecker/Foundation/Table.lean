/- digest: Finite maps filled from a list of pairs, where a later pair replaces an earlier one. -/

import Mathlib.Data.Finmap

namespace SolidChecker.Foundation.Table

open List

variable {K V : Type*} [DecidableEq K]

def collect (pairs : List (K × V)) : Finmap fun _ : K => V :=
  pairs.foldl (fun table pair => table.insert pair.1 pair.2) ∅

private theorem collect_append (pairs : List (K × V)) (pair : K × V) :
    collect (pairs ++ [pair]) = (collect pairs).insert pair.1 pair.2 := by
  simp only [collect, foldl_append, foldl_cons, foldl_nil]

theorem lookup_insert_eq (table : Finmap fun _ : K => V) (key other : K) (value : V) :
    (table.insert key value).lookup other = if other = key then some value
      else table.lookup other := by
  split
  · rename_i same
    rw [same, Finmap.lookup_insert]
  · rename_i differ
    rw [Finmap.lookup_insert_of_ne _ differ]

theorem lookup_erase_eq (table : Finmap fun _ : K => V) (key other : K) :
    (table.erase key).lookup other = if other = key then none else table.lookup other := by
  split
  · rename_i same
    rw [same, Finmap.lookup_erase]
  · rename_i differ
    rw [Finmap.lookup_erase_ne differ]

theorem mem_keys_iff (table : Finmap fun _ : K => V) (key : K) :
    key ∈ table.keys ↔ table.lookup key ≠ none := by
  rw [Finmap.mem_keys, ← Finmap.lookup_isSome, Option.isSome_iff_ne_none]

variable {pairs : List (K × V)}

theorem mem_of_lookup_collect {key : K} {value : V}
    (found : (collect pairs).lookup key = some value) : (key, value) ∈ pairs := by
  induction pairs using List.reverseRecOn with
  | nil => exact nomatch found
  | append_singleton pairs pair ih =>
    rw [collect_append, lookup_insert_eq] at found
    rw [mem_append, mem_singleton]
    by_cases same : key = pair.1
    · rw [if_pos same, Option.some.injEq] at found
      exact .inr (Prod.ext same found.symm)
    · rw [if_neg same] at found
      exact .inl (ih found)

theorem lookup_collect (distinct : (pairs.map Prod.fst).Nodup) (key : K)
    (value : V) : (collect pairs).lookup key = some value ↔ (key, value) ∈ pairs := by
  refine ⟨mem_of_lookup_collect, fun member => ?_⟩
  induction pairs using List.reverseRecOn with
  | nil => exact nomatch member
  | append_singleton pairs pair ih =>
    rw [map_append, nodup_append] at distinct
    obtain ⟨earlier, -, apart⟩ := distinct
    rw [collect_append, lookup_insert_eq]
    rcases mem_append.mp member with before | last
    · have differ : key ≠ pair.1 := apart key (mem_map_of_mem before) pair.1 (by simp)
      rw [if_neg differ]
      exact ih earlier before
    · obtain rfl := mem_singleton.mp last
      exact if_pos rfl

section

def put (table : Finmap fun _ : K => V) (key : K) : Option V → Finmap fun _ : K => V
  | some value => table.insert key value
  | none => table.erase key

theorem lookup_put (table : Finmap fun _ : K => V) (key other : K) (value : Option V) :
    (put table key value).lookup other = if other = key then value else table.lookup other := by
  cases value with
  | some value => exact lookup_insert_eq table key other value
  | none => exact lookup_erase_eq table key other

private theorem foldl_at {σ ι R : Type*} {name : ι → K} (view : σ → K → R) {step : σ → ι → σ}
    (change : ι → R → R) (steps : ∀ state item key, view (step state item) key =
      if key = name item then change item (view state key) else view state key)
    {items : List ι} (distinct : (items.map name).Nodup) (state : σ) (key : K) :
    view (items.foldl step state) key =
      match items.find? fun item => decide (name item = key) with
      | some item => change item (view state key)
      | none => view state key := by
  induction items generalizing state with
  | nil => rfl
  | cons item items ih =>
    obtain ⟨apart, rest⟩ := nodup_cons.mp distinct
    rw [foldl_cons, ih rest, steps]
    by_cases here : name item = key
    · have later : items.find? (fun item => name item = key) = none := by
        refine find?_eq_none.mpr fun other member => ?_
        rw [decide_eq_true_eq]
        exact fun same => apart (mem_map.mpr ⟨other, member, same.trans here.symm⟩)
      rw [later, find?_cons_of_pos (by simpa only [decide_eq_true_eq] using here)]
      exact if_pos here.symm
    · rw [find?_cons_of_neg (by simpa only [decide_eq_true_eq] using here), if_neg (Ne.symm here)]

theorem foldl_at_keys {σ R : Type*} (view : σ → K → R) {step : σ → K → σ} (change : K → R → R)
    (steps : ∀ state item key, view (step state item) key =
      if key = item then change item (view state key) else view state key)
    {keys : List K} (distinct : keys.Nodup) (state : σ) (key : K) :
    view (keys.foldl step state) key =
      if key ∈ keys then change key (view state key) else view state key := by
  rw [foldl_at view change steps (show (keys.map id).Nodup by rwa [map_id])]
  split
  · rename_i item found
    have same : item = key := by simpa using find?_some found
    rw [if_pos (same ▸ mem_of_find?_eq_some found), same]
  · rename_i missing
    rw [if_neg fun member => by simpa using find?_eq_none.mp missing key member]

theorem lookup_foldl_put {ι : Type*} {name : ι → K} (change : ι → Option V → Option V)
    {items : List ι} (distinct : (items.map name).Nodup) (table : Finmap fun _ : K => V) (key : K) :
    (items.foldl (fun table item => put table (name item) (change item (table.lookup (name item))))
        table).lookup key =
      match items.find? fun item => decide (name item = key) with
      | some item => change item (table.lookup key)
      | none => table.lookup key := by
  refine foldl_at (fun table key => table.lookup key) change (fun table item key => ?_) distinct
    table key
  rw [lookup_put]
  split
  · rename_i same
    rw [same]
  · rfl

theorem lookups_foldl_put {ι W : Type*} {name : ι → K}
    (change : ι → Option V × Option W → Option V × Option W) {items : List ι}
    (distinct : (items.map name).Nodup) (tables : (Finmap fun _ : K => V) × Finmap fun _ : K => W)
    (key : K) :
    let step := fun (tables : (Finmap fun _ : K => V) × Finmap fun _ : K => W) item =>
      let next := change item (tables.1.lookup (name item), tables.2.lookup (name item))
      (put tables.1 (name item) next.1, put tables.2 (name item) next.2)
    ((items.foldl step tables).1.lookup key, (items.foldl step tables).2.lookup key) =
      match items.find? fun item => decide (name item = key) with
      | some item => change item (tables.1.lookup key, tables.2.lookup key)
      | none => (tables.1.lookup key, tables.2.lookup key) := by
  refine foldl_at (fun tables key => (tables.1.lookup key, tables.2.lookup key)) change
    (fun tables item key => ?_) distinct tables key
  simp only [lookup_put]
  split
  · rename_i same
    rw [same]
  · rfl

end

end SolidChecker.Foundation.Table
