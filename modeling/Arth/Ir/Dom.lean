import Arth.Ir.Cfg

/-!
# Dominators and dominance frontiers

* `DomInfo.compute` — immediate dominators by rounds over the reverse postorder, the dominator tree
  and the frontiers. A failed `expect` and an index that is out of range are `Stop.panic`; a loop
  that needs more turns than it is given is `Stop.turns`.
* `DomInfo.dominates` — the climb from a block to the entry.
-/

namespace Arth.Ir

/-- Why a computation has no result. -/
inductive Stop where
  | panic
  | turns
  deriving DecidableEq

/-- `l[i]` -/
def fetch {α : Type} (l : List α) (i : ℕ) : Except Stop α :=
  match l[i]? with
  | some a => .ok a
  | none => .error .panic

def usizeMax : ℕ := 2 ^ 64 - 1

/-- `idom[b].expect("idom must exist")` -/
def expectIdom (idom : List (Option ℕ)) (b : ℕ) : Except Stop ℕ := do
  match ← fetch idom b with
  | some c => .ok c
  | none => .error .panic

/-- One finger climbs while its number is above `bound`. -/
def climb (idom : List (Option ℕ)) (rpoIndex : List ℕ) (bound : ℕ) :
    ℕ → ℕ → ℕ → Except Stop (ℕ × ℕ)
  | 0, _, _ => .error .turns
  | n + 1, b, i =>
    if bound < i then do
      let c ← expectIdom idom b
      let j ← fetch rpoIndex c
      climb idom rpoIndex bound n c j
    else .ok (b, i)

/-- The fingers with their numbers, until they meet. -/
def meet (idom : List (Option ℕ)) (rpoIndex : List ℕ) :
    ℕ → ℕ × ℕ → ℕ × ℕ → Except Stop ℕ
  | 0, _, _ => .error .turns
  | n + 1, (b₁, i₁), (b₂, i₂) =>
    if b₁ = b₂ then .ok b₁
    else do
      let f₁ ← climb idom rpoIndex i₂ (idom.length + 1) b₁ i₁
      let f₂ ← climb idom rpoIndex f₁.2 (idom.length + 1) b₂ i₂
      meet idom rpoIndex n f₁ f₂

def intersect (b₁ b₂ : ℕ) (idom : List (Option ℕ)) (rpoIndex : List ℕ) : Except Stop ℕ := do
  let i₁ ← fetch rpoIndex b₁
  let i₂ ← fetch rpoIndex b₂
  meet idom rpoIndex (2 * idom.length + 1) (b₁, i₁) (b₂, i₂)

/-- One predecessor: skipped if it is unreachable or has no dominator yet. -/
def joinPred (cfg : Cfg) (idom : List (Option ℕ)) (rpoIndex : List ℕ) (newIdom : Option ℕ)
    (p : ℕ) : Except Stop (Option ℕ) := do
  let r ← fetch cfg.reachable p
  if r then
    match ← fetch idom p with
    | some _ =>
      match newIdom with
      | none => .ok (some p)
      | some q => do
        let c ← intersect p q idom rpoIndex
        .ok (some c)
    | none => .ok newIdom
  else .ok newIdom

/-- One block of a round, with the flag `changed`. -/
def visitBlock (cfg : Cfg) (rpoIndex : List ℕ) (s : List (Option ℕ) × Bool) (b : ℕ) :
    Except Stop (List (Option ℕ) × Bool) := do
  let r ← fetch cfg.reachable b
  if r then
    let preds ← fetch cfg.preds b
    let newIdom ← preds.foldlM (joinPred cfg s.1 rpoIndex) none
    let old ← fetch s.1 b
    if newIdom.isSome ∧ old ≠ newIdom then .ok (s.1.set b newIdom, true)
    else .ok s
  else .ok s

def round (cfg : Cfg) (rpoIndex : List ℕ) (idom : List (Option ℕ)) :
    Except Stop (List (Option ℕ) × Bool) :=
  (cfg.rpo.drop 1).foldlM (visitBlock cfg rpoIndex) (idom, false)

/-- Rounds until one changes nothing. -/
def rounds (cfg : Cfg) (rpoIndex : List ℕ) : ℕ → List (Option ℕ) → Except Stop (List (Option ℕ))
  | 0, _ => .error .turns
  | n + 1, idom => do
    let s ← round cfg rpoIndex idom
    if s.2 then rounds cfg rpoIndex n s.1 else .ok s.1

/-- The numbers of the blocks in `rpo`. -/
def numberRpo (n : ℕ) (rpo : List ℕ) : List ℕ :=
  rpo.zipIdx.foldl (fun rpoIndex s => rpoIndex.set s.1 s.2) (List.replicate n usizeMax)

/-- `lists[i].push(b)` -/
def pushAt (lists : List (List ℕ)) (i b : ℕ) : Except Stop (List (List ℕ)) := do
  let _ ← fetch lists i
  .ok (lists.modify i (· ++ [b]))

def addChild (tree : List (List ℕ)) (s : Option ℕ × ℕ) : Except Stop (List (List ℕ)) :=
  match s.1 with
  | some p => if p ≠ s.2 then pushAt tree p s.2 else .ok tree
  | none => .ok tree

/-- The walk from a predecessor of `b` up to its immediate dominator. -/
def runFrontier (idom : List (Option ℕ)) (b : ℕ) (stop : Option ℕ) :
    ℕ → List (List ℕ) → ℕ → Except Stop (List (List ℕ))
  | 0, _, _ => .error .turns
  | n + 1, frontier, runner =>
    if some runner = stop then .ok frontier
    else do
      let frontier ← pushAt frontier runner b
      match ← fetch idom runner with
      | some id => runFrontier idom b stop n frontier id
      | none => .ok frontier

def addFrontier (cfg : Cfg) (idom : List (Option ℕ)) (frontier : List (List ℕ)) (b : ℕ) :
    Except Stop (List (List ℕ)) := do
  let r ← fetch cfg.reachable b
  if r then
    let preds ← fetch cfg.preds b
    if 2 ≤ preds.length then do
      let stop ← fetch idom b
      preds.foldlM (runFrontier idom b stop (idom.length + 1)) frontier
    else .ok frontier
  else .ok frontier

structure DomInfo where
  idom : List (Option ℕ)
  tree : List (List ℕ)
  frontier : List (List ℕ)

def DomInfo.compute (func : Func) (cfg : Cfg) : Except Stop DomInfo := do
  let n := func.blocks.length
  if n = 0 then .ok ⟨[], [], []⟩
  else
    let rpoIndex := numberRpo n cfg.rpo
    let entry := cfg.rpo.headD 0
    let start := (List.replicate n none).set entry (some entry)
    let idom ← rounds cfg rpoIndex (n * n + 1) start
    let tree ← idom.zipIdx.foldlM addChild (List.replicate n [])
    let frontier ← (List.range n).foldlM (addFrontier cfg idom) (List.replicate n [])
    .ok ⟨idom, tree, frontier.map List.eraseDups⟩

/-- The climb of `dominates`, from `v`. -/
def climbTo (idom : List (Option ℕ)) (a : ℕ) : ℕ → ℕ → Except Stop Bool
  | 0, _ => .error .turns
  | n + 1, v =>
    if v = a then .ok true
    else do
      match ← fetch idom v with
      | some w => if w = v then .ok false else climbTo idom a n w
      | none => .ok false

def DomInfo.dominates (d : DomInfo) (a b : ℕ) : Except Stop Bool :=
  climbTo d.idom a (d.idom.length + 1) b

end Arth.Ir
