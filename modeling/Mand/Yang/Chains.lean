import Mand.Save.Serialize
import Mathlib.Data.List.Sort

/-! # The chains of actions

`make_chains` of the generator plug-in `OpenCPE.py`. The actions of a data model name the actions that are to follow
them; the chains are cut where another chain has the action already, and the actions are put in order.

A dictionary is a list of keys, in the order of `keys()`, and a function; names are bytes. -/
namespace Mand.Yang
open Mand.Save
set_option autoImplicit false

abbrev Name := List ℕ

/-! ## Matrices -/

/-- A matrix of numbers; its size is passed along. -/
abbrev Mat := ℕ → ℕ → ℕ

def zero : Mat := fun _ _ => 0

def Mat.set (M : Mat) (i j v : ℕ) : Mat := fun a b => if a = i ∧ b = j then v else M a b

/-- The loop over `j` of `warshall`. -/
def closeRow (n k i : ℕ) (M : Mat) : Mat :=
  (List.range n).foldl (fun M j => if M k j = 1 then M.set i j 1 else M) M

/-- The loop over `i` of `warshall`. -/
def closeVia (n k : ℕ) (M : Mat) : Mat :=
  (List.range n).foldl (fun M i => if M i k = 1 then closeRow n k i M else M) M

/-- `warshall`. -/
def warshall (n : ℕ) (M : Mat) : Mat := (List.range n).foldl (fun M k => closeVia n k M) M

/-- `rel_mult`: entries above zero are one. -/
def relMult (n : ℕ) (M1 M2 : Mat) : Mat := fun i j =>
  let sum := ((List.range n).map fun k => M1 i k * M2 k j).sum
  if 0 < sum then 1 else sum

/-- `set_substr`: entries below zero are zero. -/
def setSubstr (M1 M2 : Mat) : Mat := fun i j => M1 i j - M2 i j

/-- `trans_reduct`. -/
def transReduct (n : ℕ) (M : Mat) : Mat := setSubstr M (relMult n M (warshall n M))

/-! ## Chains -/

/-- The names in the text of a chain. -/
def chainNames (text : Name) : List Name := if text = ascii "NULL" then [] else text.splitOn 59

section Dict
variable (keys : List Name)

/-- The entries of one chain; a name that is no key is a `ValueError`. -/
def addChain (i : ℕ) (chain : List Name) (M : Mat) : Option Mat :=
  chain.foldlM (fun M b => (keys.idxOf? b).map fun j => M.set i j 1) M

/-- The adjacency matrix. -/
def adjacency (chains : Name → List Name) : Option Mat :=
  keys.foldlM (fun M a => (keys.idxOf? a).bind fun i => addChain keys i (chains a) M) zero

/-- The loop over `j` in which a chain loses names. -/
def pruneRow (adj : Mat) (i : ℕ) (a : Name) (chains : Name → List Name) : Name → List Name :=
  keys.zipIdx.foldl (fun chains p =>
    if adj i p.2 = 0 ∧ p.1 ∈ chains a then Function.update chains a ((chains a).erase p.1) else chains) chains

def prune (adj : Mat) (chains : Name → List Name) : Name → List Name :=
  keys.zipIdx.foldl (fun chains p => pruneRow keys adj p.2 p.1 chains) chains

/-- `depth_first`, with a bound on the depth of the recursion. -/
def depthFirst (chains : Name → List Name) : ℕ → ℕ → ℕ → (ℕ → ℕ) → Option (ℕ → ℕ)
  | 0, _, _, _ => none
  | fuel + 1, i, depth, depths =>
    (keys[i]?).bind fun a =>
      (chains a).foldlM (fun depths b => (keys.idxOf? b).bind fun j => depthFirst chains fuel j (depth + 1) depths)
        (if depths i < depth then Function.update depths i depth else depths)

/-- The depths after a search from every key. -/
def allDepths (chains : Name → List Name) (fuel : ℕ) : Option (ℕ → ℕ) :=
  keys.foldlM (fun depths a => (keys.idxOf? a).bind fun i => depthFirst keys chains fuel i 0 depths) fun _ => 0

/-- `list(set(depths))`, in ascending order. -/
def uniqueDepths (depths : ℕ → ℕ) : List ℕ := ((List.range keys.length).map depths).dedup.insertionSort (· ≤ ·)

/-- The keys by their depths. -/
def actionsOrder (depths : ℕ → ℕ) : List Name :=
  (uniqueDepths keys depths).flatMap fun d => (keys.zipIdx.filter fun p => depths p.2 = d).map Prod.fst

/-- `make_chains`: the chains and `actions_order`. -/
def makeChains (fuel : ℕ) (text : Name → Name) : Option ((Name → List Name) × List Name) := do
  let chains := fun a => chainNames (text a)
  let adj ← adjacency keys chains
  let chains := prune keys (transReduct keys.length adj) chains
  let depths ← allDepths keys chains fuel
  some (chains, actionsOrder keys depths)

end Dict

def sampleKeys : List Name := [[97], [98], [99]]

def sampleText (a : Name) : Name :=
  if a = [97] then ascii "b;c" else if a = [98] then ascii "c" else ascii "NULL"

/-- A chain that skips an action loses the last one. -/
example : (makeChains sampleKeys 3 sampleText).map (fun r => (r.1 [97], r.1 [98], r.1 [99], r.2)) =
    some ([[98]], [[99]], [], [[97], [98], [99]]) := by decide

end Mand.Yang
