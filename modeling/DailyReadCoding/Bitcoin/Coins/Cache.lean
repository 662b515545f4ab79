import Mathlib.Data.List.AList
import DailyReadCoding.Bitcoin.Primitives.Transaction

/-!
# Caches of coins

`CCoinsViewCache` (`coins.h`, `coins.cpp`): unspent outputs that were read from, or are to be
written to, another view. That view is a cache again or the database, so that the state is a list of
caches, each before the one it is backed by, and the database behind them.

A coin carries how much memory its script has been given, which depends on the history of the object
and not only on the script.
-/

namespace Bitcoin.Coins

structure Coin where
  out : CTxOut
  fCoinBase : Bool
  nHeight : BitVec 31
  /-- `scriptPubKey.allocated_memory()` -/
  allocated : BitVec 32
  deriving DecidableEq

/-- `Coin()`, and what `Clear` leaves: `CScript::clear` gives the memory back. -/
def Coin.empty : Coin := ⟨CTxOut.null, false, 0, 0⟩

def Coin.isSpent (coin : Coin) : Bool := coin.out.nValue = -1

/-- `MallocUsage`, with pointers of eight bytes -/
def mallocUsage (alloc : ℕ) : ℕ := if alloc = 0 then 0 else ((alloc + 31) >>> 4) <<< 4

def Coin.dynamicMemoryUsage (coin : Coin) : ℤ := mallocUsage coin.allocated.toNat

/-- A copy into a new coin: up to 28 bytes of script are held without further memory. -/
def Coin.copy (coin : Coin) : Coin :=
  { coin with
    allocated :=
      if coin.out.scriptPubKey.length ≤ 28 then 0
        else BitVec.ofNat 32 coin.out.scriptPubKey.length }

def OP_RETURN : BitVec 8 := 0x6a

def isUnspendable (script : CScript) : Bool :=
  script.head? = some OP_RETURN ∨ script.length > MAX_SCRIPT_SIZE

structure CCoinsCacheEntry where
  coin : Coin
  dirty : Bool
  fresh : Bool
  deriving DecidableEq

/-- `CCoinsMap`, an `unordered_map` -/
abbrev CCoinsMap : Type := AList fun _ : COutPoint => CCoinsCacheEntry

/-- The order in which a map is gone through; it depends on a random salt. -/
structure HashOrder where
  reorder : CCoinsMap → CCoinsMap
  perm : ∀ m, (reorder m).entries.Perm m.entries

structure CCoinsViewCache where
  hashBlock : Uint256
  cacheCoins : CCoinsMap
  /-- A `size_t` in the source; it is negative here where that wraps below zero. -/
  cachedCoinsUsage : ℤ

def Uint256.null : Uint256 := ⟨List.replicate 32 0, rfl⟩

/-- `CCoinsViewCache()` -/
def CCoinsViewCache.new : CCoinsViewCache := ⟨Uint256.null, ∅, 0⟩

/-- The view behind all caches. -/
structure CoinsDB where
  coins : COutPoint → Option Coin
  bestBlock : Uint256

/-- The caches, each before the one it is backed by, and the view behind them. -/
structure Views where
  caches : List CCoinsViewCache
  db : CoinsDB

inductive Exception
  /-- `Attempted to overwrite an unspent coin (when possible_overwrite is false)` -/
  | overwrite
  /-- `FRESH flag misapplied to coin that exists in parent cache` -/
  | freshMisapplied
  /-- A failed assertion. -/
  | assert
  deriving DecidableEq

/-! ## Reading -/

namespace CCoinsViewCache

/-- The end of `FetchCoin`, once the view behind has answered. -/
def fetched (c : CCoinsViewCache) (outpoint : COutPoint) :
    Option Coin → Option CCoinsCacheEntry × CCoinsViewCache
  | none => (none, c)
  | some tmp =>
    let entry : CCoinsCacheEntry := ⟨tmp, false, tmp.isSpent⟩
    (some entry, { c with
      cacheCoins := c.cacheCoins.insert outpoint entry
      cachedCoinsUsage := c.cachedCoinsUsage + tmp.dynamicMemoryUsage })

end CCoinsViewCache

/-- What `GetCoin` makes of an entry. -/
def CCoinsCacheEntry.read (entry : CCoinsCacheEntry) : Option Coin :=
  if entry.coin.isSpent then none else some entry.coin.copy

/-- Every cache on the way may remember the coin. -/
def getCoin (db : CoinsDB) : List CCoinsViewCache → COutPoint → Option Coin × List CCoinsViewCache
  | [], outpoint => (db.coins outpoint, [])
  | c :: base, outpoint =>
    match c.cacheCoins.lookup outpoint with
    | some entry => (entry.read, c :: base)
    | none =>
      let (tmp, base) := getCoin db base outpoint
      let (entry, c) := c.fetched outpoint tmp
      (entry.bind (·.read), c :: base)

def fetchCoin (db : CoinsDB) (c : CCoinsViewCache) (base : List CCoinsViewCache)
    (outpoint : COutPoint) :
    Option CCoinsCacheEntry × CCoinsViewCache × List CCoinsViewCache :=
  match c.cacheCoins.lookup outpoint with
  | some entry => (some entry, c, base)
  | none =>
    let (tmp, base) := getCoin db base outpoint
    let (entry, c) := c.fetched outpoint tmp
    (entry, c, base)

def accessCoin (db : CoinsDB) (c : CCoinsViewCache) (base : List CCoinsViewCache)
    (outpoint : COutPoint) :
    Coin × CCoinsViewCache × List CCoinsViewCache :=
  let (entry, c, base) := fetchCoin db c base outpoint
  ((entry.map (·.coin)).getD Coin.empty, c, base)

def haveCoin (db : CoinsDB) (c : CCoinsViewCache) (base : List CCoinsViewCache)
    (outpoint : COutPoint) :
    Bool × CCoinsViewCache × List CCoinsViewCache :=
  let (entry, c, base) := fetchCoin db c base outpoint
  (entry.any fun entry => !entry.coin.isSpent, c, base)

def getBestBlock (db : CoinsDB) : List CCoinsViewCache → Uint256 × List CCoinsViewCache
  | [] => (db.bestBlock, [])
  | c :: base =>
    if c.hashBlock = Uint256.null then
      let (hashBlock, base) := getBestBlock db base
      (hashBlock, { c with hashBlock } :: base)
    else (c.hashBlock, c :: base)

/-! ## Changing -/

namespace CCoinsViewCache

variable (c : CCoinsViewCache)

def haveCoinInCache (outpoint : COutPoint) : Bool :=
  (c.cacheCoins.lookup outpoint).any fun entry => !entry.coin.isSpent

/-- `AddCoin`, with the cache as it is left when an exception is thrown. -/
def addCoin (outpoint : COutPoint) (coin : Coin) (possible_overwrite : Bool) :
    Option Exception × CCoinsViewCache :=
  if coin.isSpent then (some .assert, c)
  else if isUnspendable coin.out.scriptPubKey then (none, c)
  else
    let old := c.cacheCoins.lookup outpoint
    let entry := old.getD ⟨Coin.empty, false, false⟩
    let usage := c.cachedCoinsUsage - (old.map (·.coin.dynamicMemoryUsage)).getD 0
    if !possible_overwrite && !entry.coin.isSpent then
      -- A new entry is spent, so that this one was there before.
      (some .overwrite, { c with cachedCoinsUsage := usage })
    else
      let fresh := !possible_overwrite && !entry.dirty
      (none, { c with
        cacheCoins := c.cacheCoins.insert outpoint ⟨coin, true, entry.fresh || fresh⟩
        cachedCoinsUsage := usage + coin.dynamicMemoryUsage })

/-- `emplace` does nothing if there is an entry. -/
def emplaceCoinInternalDANGER (outpoint : COutPoint) (coin : Coin) : CCoinsViewCache :=
  { c with
    cacheCoins :=
      if (c.cacheCoins.lookup outpoint).isSome then c.cacheCoins
      else c.cacheCoins.insert outpoint ⟨coin, true, false⟩
    cachedCoinsUsage := c.cachedCoinsUsage + coin.dynamicMemoryUsage }

/-- The end of `SpendCoin`, with the entry that was found. -/
def spendEntry (outpoint : COutPoint) (entry : CCoinsCacheEntry) : CCoinsViewCache :=
  { c with
    cacheCoins :=
      if entry.fresh then c.cacheCoins.erase outpoint
      else c.cacheCoins.insert outpoint ⟨Coin.empty, true, entry.fresh⟩
    cachedCoinsUsage := c.cachedCoinsUsage - entry.coin.dynamicMemoryUsage }

def uncache (outpoint : COutPoint) : CCoinsViewCache :=
  match c.cacheCoins.lookup outpoint with
  | some entry =>
    if !entry.dirty && !entry.fresh then
      { c with
        cacheCoins := c.cacheCoins.erase outpoint
        cachedCoinsUsage := c.cachedCoinsUsage - entry.coin.dynamicMemoryUsage }
    else c
  | none => c

/-- One round of `BatchWrite`. -/
def writeEntry (outpoint : COutPoint)
    (child : CCoinsCacheEntry) : Except Exception CCoinsViewCache :=
  if !child.dirty then .ok c
  else
    match c.cacheCoins.lookup outpoint with
    | none =>
      if child.fresh && child.coin.isSpent then .ok c
      else .ok { c with
        cacheCoins := c.cacheCoins.insert outpoint ⟨child.coin, true, child.fresh⟩
        cachedCoinsUsage := c.cachedCoinsUsage + child.coin.dynamicMemoryUsage }
    | some us =>
      if child.fresh && !us.coin.isSpent then .error .freshMisapplied
      else if us.fresh && child.coin.isSpent then .ok { c with
        cacheCoins := c.cacheCoins.erase outpoint
        cachedCoinsUsage := c.cachedCoinsUsage - us.coin.dynamicMemoryUsage }
      else .ok { c with
        cacheCoins := c.cacheCoins.insert outpoint ⟨child.coin, true, us.fresh⟩
        cachedCoinsUsage :=
          c.cachedCoinsUsage - us.coin.dynamicMemoryUsage + child.coin.dynamicMemoryUsage }

/-- The loop of `BatchWrite`, which erases each entry behind it: what was thrown, what is left of
the map, and the cache. -/
def writeLoop : List (Sigma fun _ : COutPoint => CCoinsCacheEntry) → CCoinsMap → CCoinsViewCache →
    Option Exception × CCoinsMap × CCoinsViewCache
  | [], mapCoins, c => (none, mapCoins, c)
  | e :: entries, mapCoins, c =>
    match c.writeEntry e.1 e.2 with
    | .error thrown => (some thrown, mapCoins, c)
    | .ok c => writeLoop entries (mapCoins.erase e.1) c

/-- What was thrown, what is left of the map, and the cache. -/
def batchWrite (mapCoins : CCoinsMap)
    (hashBlockIn : Uint256) : Option Exception × CCoinsMap × CCoinsViewCache :=
  match writeLoop mapCoins.entries mapCoins c with
  | (none, mapCoins, c) => (none, mapCoins, { c with hashBlock := hashBlockIn })
  | (some thrown, mapCoins, c) => (some thrown, mapCoins, c)

end CCoinsViewCache

/-- `SpendCoin`, with the coin that it moves out. -/
def spendCoin (db : CoinsDB) (c : CCoinsViewCache) (base : List CCoinsViewCache)
    (outpoint : COutPoint) :
    Option Coin × CCoinsViewCache × List CCoinsViewCache :=
  match fetchCoin db c base outpoint with
  | (none, c, base) => (none, c, base)
  | (some entry, c, base) => (some entry.coin, c.spendEntry outpoint entry, base)

/-- `BatchWrite` of the database: spent coins are erased, the others are written. -/
def CoinsDB.batchWrite (db : CoinsDB) (mapCoins : CCoinsMap) (hashBlock : Uint256) : CoinsDB where
  coins := fun outpoint =>
    match mapCoins.lookup outpoint with
    | some entry =>
      if entry.dirty then (if entry.coin.isSpent then none else some entry.coin.copy)
        else db.coins outpoint
    | none => db.coins outpoint
  bestBlock := hashBlock

/-- If the cache behind throws, what it had already taken is gone from this one. -/
def flush (order : HashOrder) (db : CoinsDB) (c : CCoinsViewCache) :
    List CCoinsViewCache → Option Exception × Views
  | [] => (none,
      ⟨[{ c with cacheCoins := ∅, cachedCoinsUsage := 0 }], db.batchWrite c.cacheCoins c.hashBlock⟩)
  | parent :: base =>
    match parent.batchWrite (order.reorder c.cacheCoins) c.hashBlock with
    | (none, _, parent) =>
        (none, ⟨{ c with cacheCoins := ∅, cachedCoinsUsage := 0 } :: parent :: base, db⟩)
    | (some thrown, left, parent) =>
        (some thrown, ⟨{ c with cacheCoins := left } :: parent :: base, db⟩)

/-! ## Sequences of operations -/

inductive CacheOp
  | getCoin (outpoint : COutPoint)
  | accessCoin (outpoint : COutPoint)
  | haveCoin (outpoint : COutPoint)
  | haveCoinInCache (outpoint : COutPoint)
  | getBestBlock
  | setBestBlock (hashBlockIn : Uint256)
  | addCoin (outpoint : COutPoint) (coin : Coin) (possible_overwrite : Bool)
  | emplaceCoinInternalDANGER (outpoint : COutPoint) (coin : Coin)
  | spendCoin (outpoint : COutPoint)
  | batchWrite (mapCoins : CCoinsMap) (hashBlockIn : Uint256)
  | uncache (outpoint : COutPoint)
  | flush (order : HashOrder)

/-- An operation on the first cache: what it throws, and the views behind it. -/
def CacheOp.call (op : CacheOp) (db : CoinsDB) (c : CCoinsViewCache) (base : List CCoinsViewCache) :
    Option Exception × Views :=
  match op with
  | .getCoin outpoint => (none, ⟨(Coins.getCoin db (c :: base) outpoint).2, db⟩)
  | .accessCoin outpoint =>
    let (_, c, base) := Coins.accessCoin db c base outpoint
    (none, ⟨c :: base, db⟩)
  | .haveCoin outpoint =>
    let (_, c, base) := Coins.haveCoin db c base outpoint
    (none, ⟨c :: base, db⟩)
  | .haveCoinInCache _ => (none, ⟨c :: base, db⟩)
  | .getBestBlock => (none, ⟨(Coins.getBestBlock db (c :: base)).2, db⟩)
  | .setBestBlock hashBlockIn => (none, ⟨{ c with hashBlock := hashBlockIn } :: base, db⟩)
  | .addCoin outpoint coin possible_overwrite =>
    let (thrown, c) := c.addCoin outpoint coin possible_overwrite
    (thrown, ⟨c :: base, db⟩)
  | .emplaceCoinInternalDANGER outpoint coin =>
      (none, ⟨c.emplaceCoinInternalDANGER outpoint coin :: base, db⟩)
  | .spendCoin outpoint =>
    let (_, c, base) := Coins.spendCoin db c base outpoint
    (none, ⟨c :: base, db⟩)
  | .batchWrite mapCoins hashBlockIn =>
    let (thrown, _, c) := c.batchWrite mapCoins hashBlockIn
    (thrown, ⟨c :: base, db⟩)
  | .uncache outpoint => (none, ⟨c.uncache outpoint :: base, db⟩)
  | .flush order => Coins.flush order db c base

end Bitcoin.Coins
