import AtomicCss.Engine

/-!
# Sessions

On demand, the classes that content uses are committed into an engine token by token. The session
cache remembers which pairs of a generator and a token were committed, with the containers that
they led to; a pair is generated at most once, and nothing is ever removed.
-/

namespace AtomicCss

/-- One committed pair. -/
structure CacheEntry where
  generator : GeneratorId
  token : String
  containers : List ContainerId
  deriving DecidableEq, Repr

/-- The committed pairs, ordered by generator and then by token. -/
structure SessionCache where
  entries : List CacheEntry
  deriving DecidableEq, Repr

namespace SessionCache

def empty : SessionCache := ⟨[]⟩

instance : EmptyCollection SessionCache := ⟨empty⟩

def get? (c : SessionCache) (generator : GeneratorId) (token : String) :
    Option (List ContainerId) :=
  (c.entries.find? fun x => x.generator = generator ∧ x.token = token).map (·.containers)

def contains (c : SessionCache) (generator : GeneratorId) (token : String) : Bool :=
  (c.get? generator token).isSome

/-- Whether a pair comes before another one. -/
def before (x y : CacheEntry) : Bool :=
  x.generator < y.generator || (x.generator == y.generator && x.token < y.token)

/-- Puts an entry in front of the first one that comes behind it. -/
def place (x : CacheEntry) : List CacheEntry → List CacheEntry
  | [] => [x]
  | y :: ys => if before x y then x :: y :: ys else y :: place x ys

/-- Adds a pair that is not committed yet. -/
def insert (c : SessionCache) (generator : GeneratorId) (token : String)
    (containers : List ContainerId) : SessionCache :=
  ⟨place ⟨generator, token, containers⟩ c.entries⟩

def size (c : SessionCache) : Nat := c.entries.length

def isEmpty (c : SessionCache) : Bool := c.entries.isEmpty

/-- The committed tokens, each once and in order. -/
def tokens (c : SessionCache) : List String :=
  ((c.entries.map (·.token)).mergeSort (· ≤ ·)).eraseReps

end SessionCache

/-- What a commit did. -/
structure CommitReport where
  tokensSeen : Nat
  newEntries : Nat
  cachedEntries : Nat
  containers : Nat
  deriving DecidableEq, Repr

namespace CommitReport

/-- The report of a commit without tokens. -/
def empty : CommitReport := ⟨0, 0, 0, 0⟩

def changed (r : CommitReport) : Bool := 0 < r.newEntries

end CommitReport

/-- An engine with what was committed into it, and the report of the running commit. -/
structure Commit where
  engine : Engine
  cache : SessionCache
  report : CommitReport

namespace Commit

def start (e : Engine) (c : SessionCache) : Commit := ⟨e, c, .empty⟩

/-- Commits a token for one of its generators, unless that pair is committed. -/
def pair (k : Commit) (token : String) (id : GeneratorId) : Except Error Commit :=
  if k.cache.contains id token then
    .ok { k with report := { k.report with cachedEntries := k.report.cachedEntries + 1 } }
  else do
    let (engine, ids) ← k.engine.generate id token
    return ⟨engine, k.cache.insert id token ids,
      { k.report with
        newEntries := k.report.newEntries + 1
        containers := k.report.containers + ids.length }⟩

/-- Commits a token for all of its generators. -/
def token (k : Commit) (token : String) : Except Error Commit :=
  (k.engine.generatorsFor token).foldlM (fun k id => k.pair token id)
    { k with report := { k.report with tokensSeen := k.report.tokensSeen + 1 } }

def tokens (k : Commit) (tokens : List String) : Except Error Commit :=
  tokens.foldlM (fun k t => k.token t) k

end Commit

end AtomicCss
