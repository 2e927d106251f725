import ShiftReduce.Item

/-!
# Looking a state up by its items

While the automaton is built, every goto set has to be compared with the states found so far. The
index spreads the state numbers over 997 buckets, by a sum over the items of the state, so that a
set is compared only with the states of its own bucket.

The sum is taken in 64-bit words. Only the buckets in use are stored.
-/

namespace ShiftReduce

/-- State numbers by bucket, each bucket in the order of registration. -/
structure StateIndex where
  buckets : Std.ExtTreeMap Nat (List Nat)
  deriving DecidableEq

namespace StateIndex

def bucketCount : Nat := 997

/-- The bucket of a set of items. An item counts by its production, its marker and its place. -/
def bucketOf (items : ItemSet) : Nat :=
  items.toList.zipIdx.foldl
    (fun sum (i, place) => (sum + i.rule * 97 + i.marker * 7 + place) % UInt64.size % bucketCount) 0

def empty : StateIndex := ⟨∅⟩

/-- The state numbers in a bucket. -/
def bucket (index : StateIndex) (number : Nat) : List Nat :=
  index.buckets.getD number []

/-- The first of the listed states that has exactly the given items. -/
def findIn (states : Array ItemSet) (items : ItemSet) : List Nat → Except Missing (Option Nat)
  | [] => .ok none
  | n :: rest =>
    match states[n]? with
    | none => .error (.state n)
    | some known => if known = items then .ok (some n) else findIn states items rest

/-- The state with the given items. If there is none, they are registered under `fresh`. -/
def search (index : StateIndex) (states : Array ItemSet) (items : ItemSet) (fresh : Nat) :
    Except Missing (Option Nat × StateIndex) := do
  let number := bucketOf items
  let listed := index.bucket number
  match ← findIn states items listed with
  | some n => return (some n, index)
  | none => return (none, ⟨index.buckets.insert number (listed ++ [fresh])⟩)

/-- One registered state: its number and how many items it has. -/
def entryText (states : Array ItemSet) (n : Nat) : Except Missing Text :=
  match states[n]? with
  | none => .error (.state n)
  | some items => .ok (" " ++ Text.ofNat n ++ "(" ++ Text.ofNat items.size ++ ")")

/-- A bucket and the states registered in it. -/
def bucketLine (states : Array ItemSet) (number : Nat) (listed : List Nat) :
    Except Missing Text := do
  let entries ← listed.mapM (entryText states)
  return Text.line ("[" ++ Text.ofNat number ++ "]" ++ entries.flatten)

/-- The number of states that share a bucket with an earlier one. -/
def collisions (index : StateIndex) : Nat :=
  index.buckets.toList.foldl (fun sum (_, listed) => sum + (listed.length - 1)) 0

/-- The buckets in use and their totals. -/
def listing (index : StateIndex) (states : Array ItemSet) : Except Missing Text := do
  let lines ← index.buckets.toList.mapM fun (number, listed) => bucketLine states number listed
  let totals : Text := Text.ofNat states.size ++ " states in " ++
    Text.ofNat index.buckets.size ++ " of " ++ Text.ofNat bucketCount ++ " buckets, " ++
    Text.ofNat index.collisions ++ " collisions"
  return Text.ofString "\n--state hash table--\n" ++ lines.flatten ++ totals.line

end StateIndex

end ShiftReduce
