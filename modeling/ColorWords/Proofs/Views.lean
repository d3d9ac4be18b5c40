import ColorWords.Proofs.Table

/-! # Views of tables

The views list names in the order of what their colors look like, and of the names where
looks agree. Looks are compared as singles of any kind, so these orders are total whatever
hues and saturations colors can have. A built table lists the names that were inserted,
in whichever order that was, and no alias changes what they look up.
-/
namespace ColorWords
open Single

structure Look where
  saturation : Float32
  hue : Float32
  lightness : Float32

def Color.look {s : Space} (c : Color s) : Look := ⟨c.saturation, c.hue, c.lightness⟩

namespace Look

/-! ## Orders of looks -/

def compareSingles (x y : Float32) : Ordering := compare (orderKey x) (orderKey y)

/-- Numbers are compared as numbers. -/
theorem compareSingles_of_lt {x y : Float32} {p q : ℚ} (hx : Denotes x p) (hy : Denotes y q) (h : p < q) :
    compareSingles x y = .lt :=
  Nat.compare_eq_lt.mpr (hx.orderKey_lt hy h)

def byLightness (a b : Look) : Ordering := compareSingles a.lightness b.lightness

def byTurn (a b : Look) : Ordering := compareSingles a.hue b.hue

/-- Grays come first, by lightness; the others follow by hue and then lightness. -/
def byHue (grayThreshold : Float32) (a b : Look) : Ordering :=
  match decide (a.saturation ≤ grayThreshold), decide (b.saturation ≤ grayThreshold) with
  | true, true => byLightness a b
  | true, false => .lt
  | false, true => .gt
  | false, false => (byTurn a b).then (byLightness a b)

def withNames (order : Look → Look → Ordering) (x y : String × Look) : Ordering :=
  (order x.2 y.2).then (compare x.1 y.1)

variable {θ : Float32} {order : Look → Look → Ordering}

instance : Std.TransCmp byLightness :=
  inferInstanceAs (Std.TransCmp (compareOn fun a : Look => orderKey a.lightness))

instance : Std.TransCmp byTurn :=
  inferInstanceAs (Std.TransCmp (compareOn fun a : Look => orderKey a.hue))

theorem byHue_swap (θ : Float32) (a b : Look) : byHue θ a b = (byHue θ b a).swap := by
  cases ha : decide (a.saturation ≤ θ) <;> cases hb : decide (b.saturation ≤ θ) <;> simp only [byHue, ha, hb]
  · have hswap : compareLex byTurn byLightness a b = (compareLex byTurn byLightness b a).swap :=
      Std.OrientedCmp.eq_swap
    exact hswap
  · rfl
  · rfl
  · exact Std.OrientedCmp.eq_swap

instance : Std.OrientedCmp (byHue θ) := ⟨byHue_swap θ _ _⟩

instance : Std.TransCmp (byHue θ) where
  isLE_trans {a b c} hab hbc := by
    cases ha : decide (a.saturation ≤ θ) <;> cases hb : decide (b.saturation ≤ θ) <;>
      cases hc : decide (c.saturation ≤ θ) <;> simp only [byHue, ha, hb, hc] at hab hbc ⊢
    case false.false.false =>
      have htrans : (compareLex byTurn byLightness a c).isLE = true := Std.TransCmp.isLE_trans hab hbc
      exact htrans
    case true.true.true => exact Std.TransCmp.isLE_trans hab hbc
    all_goals first | rfl | exact absurd hab (by decide) | exact absurd hbc (by decide)

instance [Std.TransCmp order] : Std.TransCmp (withNames order) := by
  have hlooks : Std.TransCmp fun x y : String × Look => order x.2 y.2 :=
    { eq_swap := Std.OrientedCmp.eq_swap, isLE_trans := Std.TransCmp.isLE_trans }
  exact inferInstanceAs (Std.TransCmp (compareLex (fun x y : String × Look => order x.2 y.2) (compareOn (·.1))))

structure NameOrder (order : String × Look → String × Look → Ordering) : Prop where
  total : Std.TransCmp order
  name_eq : ∀ x y, order x y = .eq → x.1 = y.1

theorem nameOrder_withNames [Std.TransCmp order] : NameOrder (withNames order) where
  total := inferInstance
  name_eq _ _ h := compare_eq_iff_eq.mp (Ordering.then_eq_eq.mp h).2

/-! ## Ranks -/

def lightnessRank (a : Look) : List ℕ := [orderKey a.lightness]

def hueRank (θ : Float32) (a : Look) : List ℕ :=
  if decide (a.saturation ≤ θ) then [0, orderKey a.lightness] else [1, orderKey a.hue, orderKey a.lightness]

variable {a b : Look}

theorem byLightness_lt_iff : byLightness a b = .lt ↔ a.lightnessRank < b.lightnessRank := by
  simp [byLightness, compareSingles, lightnessRank, List.cons_lt_cons_iff, compare_lt_iff_lt]

theorem byLightness_eq_iff : byLightness a b = .eq ↔ a.lightnessRank = b.lightnessRank := by
  simp [byLightness, compareSingles, lightnessRank]

theorem byHue_lt_iff : byHue θ a b = .lt ↔ a.hueRank θ < b.hueRank θ := by
  cases ha : decide (a.saturation ≤ θ) <;> cases hb : decide (b.saturation ≤ θ) <;>
    simp [byHue, byLightness, byTurn, compareSingles, hueRank, ha, hb, Ordering.then_eq_lt,
      List.cons_lt_cons_iff, compare_lt_iff_lt]

theorem byHue_eq_iff : byHue θ a b = .eq ↔ a.hueRank θ = b.hueRank θ := by
  cases ha : decide (a.saturation ≤ θ) <;> cases hb : decide (b.saturation ≤ θ) <;>
    simp [byHue, byLightness, byTurn, compareSingles, hueRank, ha, hb, Ordering.then_eq_eq]

structure Ranks {s : Space} (rank : Color s → List ℕ) (order : Look → Look → Ordering) : Prop where
  lt_iff : ∀ c d, order c.look d.look = .lt ↔ rank c < rank d
  eq_iff : ∀ c d, order c.look d.look = .eq ↔ rank c = rank d

theorem lightnessRank_ranks {s : Space} : Ranks (s := s) Color.lightnessRank byLightness :=
  ⟨fun _ _ => byLightness_lt_iff, fun _ _ => byLightness_eq_iff⟩

theorem hueRank_ranks {s : Space} : Ranks (s := s) Color.hueRank (byHue s.grayThreshold) :=
  ⟨fun _ _ => byHue_lt_iff, fun _ _ => byHue_eq_iff⟩

end Look

namespace Table
variable {s : Space} {b b' : Builder s} {t : Table s}

/-! ## Views -/

def seen (t : Table s) (name : String) : String × Look := (name, (t.lookup name).look)

theorem sorted_view {rank : Color s → List ℕ} {order : Look → Look → Ordering} (hrank : Look.Ranks rank order)
    (hnodup : (Entries.keys t.entries).Nodup) {listed : Entries (Color s)}
    (hlisted : listed.Sublist t.entries) :
    ((Entries.sortBy rank listed).map (·.1)).Pairwise fun m n =>
      Look.withNames order (t.seen m) (t.seen n) = .lt := by
  have hkeys : (Entries.keys listed).Nodup := hnodup.sublist (hlisted.map _)
  refine List.pairwise_map.mpr ((Entries.sortBy_pairwise_lt hkeys rank).imp_of_mem ?_)
  intro x y hx hy hxy
  have hseen {e : String × Color s} (he : e ∈ Entries.sortBy rank listed) : t.seen e.1 = (e.1, e.2.look) := by
    have hmem := hlisted.subset ((Entries.sortBy_perm listed rank).mem_iff.mp he)
    rw [seen, lookup_of_mem hnodup hmem]
  rw [hseen hx, hseen hy, Look.withNames, Ordering.then_eq_lt, hrank.lt_iff, hrank.eq_iff, compare_lt_iff_lt]
  exact Prod.Lex.toLex_lt_toLex.mp hxy

theorem namesByHue_perm (hnodup : (Entries.keys t.entries).Nodup) :
    t.namesByHue.Perm (t.names.filter fun name => (t.lookup name).Visible) := by
  have hfilter : t.names.filter (fun name => (t.lookup name).Visible) =
      Entries.keys (t.entries.filter (!·.2.isTransparent)) := by
    rw [names, List.filter_map]
    refine congrArg Entries.keys (List.filter_congr ?_)
    intro e he
    have hlookup : t.lookup e.1 = e.2 := lookup_of_mem hnodup he
    change decide (t.lookup e.1).Visible = !e.2.isTransparent
    rw [hlookup, Bool.eq_iff_iff, decide_eq_true_iff, Bool.not_eq_true']
    rfl
  rw [hfilter]
  exact Entries.keys_perm (Entries.sortBy_perm _ _)

/-! ## Representation -/

def keys (t : Table s) : List String := Entries.keys t.entries ++ Entries.keys t.aliases

/-- Names and aliases in one map, in which an alias replaces a name that it shadows. -/
def toMap (t : Table s) : Entries (Color s) := Entries.putAll t.entries t.aliases

theorem toMap_eq (h : t.keys.Nodup) : t.toMap = t.entries ++ t.aliases := by
  refine Entries.putAll_of_nodup ?_
  rwa [Entries.keys, List.map_append]

/-- Where no alias shadows a name the one map says what the two lists say. -/
theorem lookup_toMap (h : t.keys.Nodup) (key : String) : t.toMap.lookup key = t.get? key := by
  rw [toMap_eq h, List.lookup_append, get?]

/-- A table has the names that a builder was given, with the last color of each, lists them in order,
and has further keys for their colors. -/
structure Represents (t : Table s) (b : Builder s) : Prop where
  names_increasing : t.names.Pairwise (· < ·)
  mem_names : ∀ name, name ∈ t.names ↔ name ∈ Entries.keys b.entries
  byLightness_perm : t.namesByLightness.Perm t.names
  byLightness_sorted : t.namesByLightness.Pairwise fun m n =>
    Look.withNames Look.byLightness (t.seen m) (t.seen n) = .lt
  byHue_perm : t.namesByHue.Perm (t.names.filter fun name => (t.lookup name).Visible)
  byHue_sorted : t.namesByHue.Pairwise fun m n =>
    Look.withNames (Look.byHue s.grayThreshold) (t.seen m) (t.seen n) = .lt
  keys_nodup : t.keys.Nodup
  mem_keys : ∀ key, key ∈ t.keys ↔ t.contains key = true
  get?_eq : ∀ key, t.get? key = t.toMap.lookup key
  lookup_last : ∀ name c, b.entries.reverse.lookup name = some c → t.toMap.lookup name = some c
  lookup_key : ∀ key c, t.toMap.lookup key = some c → ∃ name ∈ Entries.keys b.entries, t.toMap.lookup name = some c
  size_le : t.size ≤ t.toMap.length
  built_eq : t.built = .tableBuilt t.size (t.toMap.length - t.size) t.namesByHue.length

theorem Represents.get?_last (h : t.Represents b) {name : String} {c : Color s}
    (hlast : b.entries.reverse.lookup name = some c) : t.get? name = some c :=
  (h.get?_eq name).trans (h.lookup_last name c hlast)

theorem lookup_entries_build (b : Builder s) (name : String) :
    b.build.entries.lookup name = b.entries.reverse.lookup name := by
  have hperm : b.lastEntries.Perm b.build.entries := (Entries.sortBy_perm b.lastEntries fun _ => []).symm
  rw [← Entries.lookup_perm b.nodup_lastEntries hperm, Builder.lastEntries, Entries.lookup_putAll,
    List.lookup_nil, Option.or_none]

theorem represents_build (b : Builder s) : b.build.Represents b := by
  have hperm : b.build.entries.Perm b.lastEntries := Entries.sortBy_perm b.lastEntries fun _ => []
  have hnodup : (Entries.keys b.build.entries).Nodup := nodup_ofEntries b.nodup_lastEntries _
  have hresolved := b.resolved_build
  have hmem (name : String) : name ∈ b.build.names ↔ name ∈ Entries.keys b.entries := by
    have hkeys : name ∈ b.build.names ↔ name ∈ Entries.keys b.lastEntries := (Entries.keys_perm hperm).mem_iff
    rw [hkeys, Builder.lastEntries, Entries.mem_keys_putAll]
    exact or_iff_right (List.not_mem_nil)
  have hkeys : b.build.keys.Nodup := List.Nodup.append hnodup hresolved.nodup fun name hname halias =>
    hresolved.apart name halias hname
  have hlength : b.build.toMap.length = b.build.size + b.build.aliases.length := by
    rw [toMap_eq hkeys, List.length_append, size]
  exact {
    names_increasing := by
      refine List.pairwise_map.mpr ((Entries.sortBy_pairwise_lt b.nodup_lastEntries fun _ => []).imp ?_)
      intro x y hxy
      exact (Prod.Lex.toLex_lt_toLex.mp hxy).elim (fun h => absurd h (lt_irrefl _)) And.right
    mem_names := hmem
    byLightness_perm := Entries.keys_perm (Entries.sortBy_perm b.build.entries _)
    byLightness_sorted := sorted_view Look.lightnessRank_ranks hnodup (List.Sublist.refl _)
    byHue_perm := namesByHue_perm hnodup
    byHue_sorted := sorted_view Look.hueRank_ranks hnodup List.filter_sublist
    keys_nodup := hkeys
    mem_keys := fun key => List.mem_append.trans contains_iff.symm
    get?_eq := fun key => (lookup_toMap hkeys key).symm
    lookup_last := by
      intro name c h
      rw [lookup_toMap hkeys, get?, lookup_entries_build, h, Option.some_or]
    lookup_key := by
      intro key c h
      rw [lookup_toMap hkeys] at h
      obtain ⟨name, hname⟩ := hresolved.color_of_get? h
      refine ⟨name, (hmem name).mp (Entries.mem_keys_of_mem hname), ?_⟩
      rw [lookup_toMap hkeys, get?, Entries.lookup_of_mem hnodup hname, Option.some_or]
    size_le := by omega
    built_eq := by
      rw [built, hlength, Nat.add_sub_cancel_left, namesByHue, List.length_map] }

/-- What every built table satisfies, whichever order distinct names were inserted in; the orders of
the views are total whatever singles they compare. -/
theorem built_represents :
    (∀ (b : Builder s) (t : Table s), t = b.build ∨ b.tryBuild = .ok t → t.Represents b) ∧
      (∀ b b' : Builder s, (Entries.keys b.entries).Nodup → b.entries.Perm b'.entries → b.aliases = b'.aliases →
        b.build = b'.build ∧ b.tryBuild = b'.tryBuild) ∧
      (∀ θ, Look.NameOrder (Look.withNames (Look.byHue θ))) ∧
      Look.NameOrder (Look.withNames Look.byLightness) := by
  refine ⟨?_, ?_, fun θ => Look.nameOrder_withNames, Look.nameOrder_withNames⟩
  · intro b t h
    obtain rfl : t = b.build := Builder.eq_build h
    exact represents_build b
  · intro b b' hnodup hentries haliases
    exact Builder.build_perm hnodup hentries haliases

theorem built_represents_scarlet :
    let b : Builder .rgb := ⟨[("red", ⟨0xFE0000FF⟩), ("gray", ⟨0xFE808080⟩)], [("scarlet", "red")]⟩
    let b' : Builder .rgb := ⟨[("gray", ⟨0xFE808080⟩), ("red", ⟨0xFE0000FF⟩)], [("scarlet", "red")]⟩
    (Entries.keys b.entries).Nodup ∧ b.entries.Perm b'.entries ∧ b.aliases = b'.aliases ∧
      b.build.Represents b ∧ b.build = b'.build ∧ b.tryBuild = b'.tryBuild := by
  intro b b'
  have hnodup : (Entries.keys b.entries).Nodup := by decide
  have hperm : b.entries.Perm b'.entries := List.Perm.swap _ _ _
  exact ⟨hnodup, hperm, rfl, built_represents.1 b b.build (.inl rfl), built_represents.2.1 b b' hnodup hperm rfl⟩

end Table
end ColorWords
