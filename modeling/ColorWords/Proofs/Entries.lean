import ColorWords.Palette.Entries
import Mathlib.Data.List.Lex
import Mathlib.Data.List.Nodup
import Mathlib.Data.Prod.Lex
import Mathlib.Data.String.Basic

/-! # Entries as maps

Setting keeps keys distinct and a key has the value that was set last. Distinct keys make
the values independent of the order of the entries, and sorting puts such entries into one
strict order, whichever order they came in.
-/
namespace ColorWords.Entries
variable {α : Type} {entries others start : Entries α} {rank : α → List Nat} {name key : String} {value : α}

def keys (entries : Entries α) : List String := entries.map (·.1)

theorem keys_perm (h : entries.Perm others) : (keys entries).Perm (keys others) := h.map _

theorem mem_keys_of_mem (h : (name, value) ∈ entries) : name ∈ keys entries := List.mem_map_of_mem h

theorem has_iff : has entries name = true ↔ name ∈ keys entries := by
  simp only [has, List.any_eq_true, beq_iff_eq, keys, List.mem_map]

theorem has_perm (h : entries.Perm others) (name : String) : has entries name = has others name := by
  rw [Bool.eq_iff_iff, has_iff, has_iff, (keys_perm h).mem_iff]

/-! ## Setting -/

theorem nodup_nil : (keys ([] : Entries α)).Nodup := List.nodup_nil

/-- Putting an old key changes values only. -/
theorem put_of_mem (h : name ∈ keys entries) (value : α) :
    put entries name value = entries.map fun e => (e.1, if e.1 = name then value else e.2) := by
  rw [put, if_pos (has_iff.mpr h)]
  refine List.map_congr_left ?_
  intro e _
  by_cases hkey : e.1 = name
  · simp [hkey]
  · simp [hkey]

theorem put_of_not_mem (h : name ∉ keys entries) (value : α) :
    put entries name value = entries ++ [(name, value)] := by
  rw [put, if_neg (mt has_iff.mp h)]

theorem keys_put_of_mem (h : name ∈ keys entries) (value : α) : keys (put entries name value) = keys entries := by
  rw [put_of_mem h, keys, List.map_map]
  rfl

theorem keys_put_of_not_mem (h : name ∉ keys entries) (value : α) :
    keys (put entries name value) = keys entries ++ [name] := by
  rw [put_of_not_mem h, keys, List.map_append]
  rfl

theorem nodup_put (h : (keys entries).Nodup) (name : String) (value : α) :
    (keys (put entries name value)).Nodup := by
  by_cases hname : name ∈ keys entries
  · rwa [keys_put_of_mem hname]
  · rw [keys_put_of_not_mem hname]
    exact List.Nodup.append h (List.nodup_singleton name) (List.disjoint_singleton.mpr hname)

theorem nodup_putAll (h : (keys start).Nodup) (entries : Entries α) : (keys (putAll start entries)).Nodup := by
  induction entries generalizing start with
  | nil => exact h
  | cons e rest ih => exact ih (nodup_put h e.1 e.2)

theorem mem_keys_put : key ∈ keys (put entries name value) ↔ key ∈ keys entries ∨ key = name := by
  by_cases hname : name ∈ keys entries
  · rw [keys_put_of_mem hname]
    exact ⟨.inl, fun h => h.elim id fun heq => heq ▸ hname⟩
  · rw [keys_put_of_not_mem hname, List.mem_append, List.mem_singleton]

theorem mem_keys_putAll : key ∈ keys (putAll start entries) ↔ key ∈ keys start ∨ key ∈ keys entries := by
  induction entries generalizing start with
  | nil => simp [putAll, keys]
  | cons e rest ih =>
    have hrest : key ∈ keys (putAll (put start e.1 e.2) rest) ↔ _ := ih
    rw [mem_keys_put, or_assoc] at hrest
    exact hrest.trans (or_congr_right List.mem_cons.symm)

/-- Entries with new and distinct keys are put at the end. -/
theorem putAll_of_nodup (h : (keys (start ++ entries)).Nodup) : putAll start entries = start ++ entries := by
  induction entries generalizing start with
  | nil => rw [List.append_nil, putAll, List.foldl_nil]
  | cons e rest ih =>
    have hnew : e.1 ∉ keys start := by
      rw [keys, List.map_append, List.map_cons] at h
      exact fun hmem => (List.nodup_append.mp h).2.2 e.1 hmem e.1 List.mem_cons_self rfl
    have hput : put start e.1 e.2 = start ++ [e] := put_of_not_mem hnew e.2
    have happend : start ++ e :: rest = start ++ [e] ++ rest := List.append_cons start e rest
    rw [happend] at h ⊢
    rw [← ih h, putAll, List.foldl_cons, hput, putAll]

theorem mem_put {e : String × α} (h : e ∈ put entries name value) : e ∈ entries ∨ e = (name, value) := by
  by_cases hname : name ∈ keys entries
  · rw [put_of_mem hname] at h
    obtain ⟨e', he', rfl⟩ := List.mem_map.mp h
    by_cases hkey : e'.1 = name
    · exact .inr (by rw [if_pos hkey, hkey])
    · exact .inl (by rwa [if_neg hkey])
  · rw [put_of_not_mem hname] at h
    exact (List.mem_append.mp h).imp id List.mem_singleton.mp

theorem mem_putAll {e : String × α} (h : e ∈ putAll start entries) : e ∈ start ∨ e ∈ entries := by
  induction entries generalizing start with
  | nil => exact .inl h
  | cons d rest ih =>
    rcases ih h with hput | hrest
    · exact (mem_put hput).imp id fun hd => List.mem_cons.mpr (.inl hd)
    · exact .inr (List.mem_cons_of_mem d hrest)

/-! ## Looking up -/

theorem lookup_cons_of_eq (rest : Entries α) : List.lookup name ((name, value) :: rest) = some value := by
  rw [List.lookup_cons, beq_self_eq_true]

theorem lookup_cons_of_ne (h : key ≠ name) (rest : Entries α) :
    List.lookup key ((name, value) :: rest) = rest.lookup key := by
  rw [List.lookup_cons, beq_false_of_ne h]

theorem mem_of_lookup (h : entries.lookup name = some value) : (name, value) ∈ entries := by
  obtain ⟨before, after, rfl, -⟩ := List.lookup_eq_some_iff.mp h
  exact List.mem_append_right before List.mem_cons_self

theorem lookup_eq_none_iff : entries.lookup name = none ↔ name ∉ keys entries := by
  rw [List.lookup_eq_none_iff, keys, List.mem_map]
  constructor
  · rintro h ⟨e, he, rfl⟩
    exact absurd rfl (bne_iff_ne.mp (h e he))
  · intro h e he
    exact bne_iff_ne.mpr fun heq => h ⟨e, he, heq.symm⟩

theorem lookup_of_mem (h : (keys entries).Nodup) (hmem : (name, value) ∈ entries) :
    entries.lookup name = some value := by
  obtain ⟨before, after, rfl⟩ := List.append_of_mem hmem
  refine List.lookup_eq_some_iff.mpr ⟨before, after, rfl, ?_⟩
  intro e he
  rw [keys, List.map_append, List.map_cons] at h
  have hdisjoint := (List.nodup_append.mp h).2.2
  rw [bne_iff_ne]
  exact (hdisjoint e.1 (List.mem_map_of_mem he) name List.mem_cons_self).symm

theorem lookup_perm (h : (keys entries).Nodup) (hperm : entries.Perm others) (name : String) :
    entries.lookup name = others.lookup name := by
  have hothers : (keys others).Nodup := (keys_perm hperm).nodup_iff.mp h
  refine Option.ext ?_
  intro value
  constructor
  · exact fun hlookup => lookup_of_mem hothers (hperm.mem_iff.mp (mem_of_lookup hlookup))
  · exact fun hlookup => lookup_of_mem h (hperm.mem_iff.mpr (mem_of_lookup hlookup))

theorem lookup_map_value (change : String → α → α) :
    (entries.map fun e => (e.1, change e.1 e.2)).lookup key = (entries.lookup key).map (change key) := by
  induction entries with
  | nil => rfl
  | cons e rest ih =>
    obtain ⟨name, value⟩ := e
    rw [List.map_cons]
    by_cases hkey : key = name
    · rw [hkey, lookup_cons_of_eq, lookup_cons_of_eq, Option.map_some]
    · rw [lookup_cons_of_ne hkey, lookup_cons_of_ne hkey, ih]

theorem lookup_put :
    (put entries name value).lookup key = if key = name then some value else entries.lookup key := by
  by_cases hold : name ∈ keys entries
  · rw [put_of_mem hold, lookup_map_value fun k old => if k = name then value else old]
    split_ifs with hkey
    · obtain ⟨old, hlookup⟩ := Option.ne_none_iff_exists'.mp (mt lookup_eq_none_iff.mp (not_not.mpr hold))
      rw [hkey, hlookup, Option.map_some]
    · exact Option.map_id_apply
  · rw [put_of_not_mem hold, List.lookup_append]
    split_ifs with hkey
    · rw [hkey, lookup_eq_none_iff.mpr hold, lookup_cons_of_eq]
      rfl
    · rw [lookup_cons_of_ne hkey, List.lookup_nil, Option.or_none]

/-- Of several values, the last one is looked up. -/
theorem lookup_putAll :
    (putAll start entries).lookup key = (entries.reverse.lookup key).or (start.lookup key) := by
  induction entries generalizing start with
  | nil => rfl
  | cons e rest ih =>
    obtain ⟨name, value⟩ := e
    have hrest : (putAll (put start name value) rest).lookup key = _ := ih
    rw [List.reverse_cons, List.lookup_append, Option.or_assoc]
    refine hrest.trans (congrArg _ ?_)
    rw [lookup_put]
    split_ifs with hkey
    · rw [hkey, lookup_cons_of_eq]
      rfl
    · rw [lookup_cons_of_ne hkey]
      rfl

/-! ## Sorting -/

theorem sortBy_perm (entries : Entries α) (rank : α → List Nat) : (sortBy rank entries).Perm entries := by
  have hranked := List.mergeSort_perm (entries.map fun e => (rank e.2, e))
    (fun x y => x.1 < y.1 || x.1 == y.1 && x.2.1 ≤ y.2.1)
  have hmap := hranked.map (·.2)
  rw [List.map_map] at hmap
  exact hmap.trans (List.Perm.of_eq (List.map_id' entries))

def position (rank : α → List Nat) (e : String × α) : List ℕ ×ₗ String := toLex (rank e.2, e.1)

theorem sortBy_pairwise (entries : Entries α) (rank : α → List Nat) :
    (sortBy rank entries).Pairwise fun x y => position rank x ≤ position rank y := by
  let le (x y : List Nat × (String × α)) : Bool := x.1 < y.1 || x.1 == y.1 && x.2.1 ≤ y.2.1
  let ranked := entries.map fun e => (rank e.2, e)
  have hle {x y : List Nat × (String × α)} : le x y = true ↔ toLex (x.1, x.2.1) ≤ toLex (y.1, y.2.1) := by
    simp only [le, Bool.or_eq_true, Bool.and_eq_true, decide_eq_true_eq, beq_iff_eq, Prod.Lex.toLex_le_toLex]
  have hsorted : (ranked.mergeSort le).Pairwise fun x y => le x y = true := by
    refine List.pairwise_mergeSort ?_ ?_ ranked
    · intro x y z hxy hyz
      exact hle.mpr ((hle.mp hxy).trans (hle.mp hyz))
    · intro x y
      exact Bool.or_eq_true_iff.mpr ((le_total _ _).imp hle.mpr hle.mpr)
  have hrank {x : List Nat × (String × α)} (hx : x ∈ ranked.mergeSort le) : x.1 = rank x.2.2 := by
    obtain ⟨e, -, rfl⟩ := List.mem_map.mp (List.mem_mergeSort.mp hx)
    rfl
  refine List.pairwise_map.mpr (hsorted.imp_of_mem ?_)
  intro x y hx hy hxy
  rw [hle, hrank hx, hrank hy] at hxy
  exact hxy

theorem sortBy_pairwise_lt (h : (keys entries).Nodup) (rank : α → List Nat) :
    (sortBy rank entries).Pairwise fun x y => position rank x < position rank y := by
  have hnodup : (keys (sortBy rank entries)).Nodup := (keys_perm (sortBy_perm entries rank)).nodup_iff.mpr h
  refine ((sortBy_pairwise entries rank).and (List.pairwise_map.mp hnodup)).imp ?_
  rintro x y ⟨hle, hne⟩
  exact lt_of_le_of_ne hle fun heq => hne (congrArg (fun p => (ofLex p).2) heq)

/-- Entries with distinct keys have only one order. -/
theorem sortBy_congr (h : (keys entries).Nodup) (hperm : entries.Perm others) (rank : α → List Nat) :
    sortBy rank entries = sortBy rank others := by
  have hsorted : (sortBy rank entries).Perm (sortBy rank others) :=
    (sortBy_perm entries rank).trans (hperm.trans (sortBy_perm others rank).symm)
  have hothers : (keys others).Nodup := (keys_perm hperm).nodup_iff.mp h
  refine hsorted.eq_of_pairwise ?_ (sortBy_pairwise_lt h rank) (sortBy_pairwise_lt hothers rank)
  exact fun x y _ _ hxy hyx => absurd hxy hyx.not_gt

theorem sortBy_of_pairwise (h : (keys entries).Nodup)
    (hsorted : entries.Pairwise fun x y => position rank x < position rank y) : sortBy rank entries = entries := by
  refine (sortBy_perm entries rank).eq_of_pairwise ?_ (sortBy_pairwise_lt h rank) hsorted
  exact fun x y _ _ hxy hyx => absurd hxy hyx.not_gt

end ColorWords.Entries
