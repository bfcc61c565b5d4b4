/-
# Enumeration

A `PathBase` (Database/PathBase.hpp) is anything that can go left, right and
up in a binary tree: a path of the trie, or a query over paths. `next` walks
depth first, left before right, with a stack of the bits it took; it stops
when the running count of the stack is zero, which is at the end of a key.
`goToMin` and `next` call each other, and `next` backs out of dead ends;
`previous` and `goToMax` are their mirror images.

A walk is the file, the path and the stack together. The loops take fuel.

Key definitions: `PathBase`, `Walk`, `Walk.next`, `Walk.goToMin`,
`Walk.goToMax`.
-/
import BeeFish.Path

namespace BeeFish

class PathBase (σ : Type) where
  canGoLeft : Database → σ → Bool
  canGoRight : Database → σ → Bool
  goLeft : Database → σ → σ × Database
  goRight : Database → σ → σ × Database
  goUp : Database → σ → σ
  copy : σ → σ
  /-- `PathBase::isDeadEnd`; a path reads it off its branch. -/
  isDeadEnd : Database → σ → Bool := fun db path => !(canGoLeft db path || canGoRight db path)

/-- Going the way of a bit. -/
def PathBase.canGo {σ : Type} [PathBase σ] (db : Database) (path : σ) : Bool → Bool
  | false => canGoLeft db path
  | true => canGoRight db path

def PathBase.go {σ : Type} [PathBase σ] (db : Database) (path : σ) : Bool → σ × Database
  | false => goLeft db path
  | true => goRight db path

instance : PathBase Path where
  canGoLeft := Path.canGoLeft
  canGoRight := Path.canGoRight
  goLeft := Path.goLeft
  goRight := Path.goRight
  goUp := Path.goUp
  copy := Path.copy
  isDeadEnd := Path.isDeadEnd

structure Walk (σ : Type) where
  db : Database
  path : σ
  stack : Stack

namespace Walk

variable {σ : Type} [PathBase σ]

def canGoLeft (c : Walk σ) : Bool := PathBase.canGoLeft c.db c.path

def canGoRight (c : Walk σ) : Bool := PathBase.canGoRight c.db c.path

def isDeadEnd (c : Walk σ) : Bool := PathBase.isDeadEnd c.db c.path

/-- `stack.push_back(0)` and `goLeft()` -/
def left (c : Walk σ) : Walk σ where
  db := (PathBase.goLeft c.db c.path).2
  path := (PathBase.goLeft c.db c.path).1
  stack := c.stack.push_back false

/-- `stack.push_back(1)` and `goRight()` -/
def right (c : Walk σ) : Walk σ where
  db := (PathBase.goRight c.db c.path).2
  path := (PathBase.goRight c.db c.path).1
  stack := c.stack.push_back true

/-- `stack.pop_back()` and `goUp()` -/
def up (c : Walk σ) : Walk σ where
  db := c.db
  path := PathBase.goUp c.db c.path
  stack := c.stack.pop_back

mutual

/-- `PathBase::next` -/
def next : ℕ → Walk σ → Option (Bool × Walk σ)
  | 0, _ => none
  | fuel + 1, c =>
    if c.stack.size = 0 then
      if c.isDeadEnd then some (false, c) else goToMin fuel c
    else climb fuel c

/-- The climb of `next` to the first right that was not taken. -/
def climb : ℕ → Walk σ → Option (Bool × Walk σ)
  | 0, _ => none
  | fuel + 1, c =>
    if c.stack.size = 0 then some (false, c)
    else
      let bit := c.stack.last
      let c := c.up
      if c.canGoRight && bit == false then followMin fuel c.right else climb fuel c

/-- The loop of `next` that follows the minimum. -/
def followMin : ℕ → Walk σ → Option (Bool × Walk σ)
  | 0, _ => none
  | fuel + 1, c =>
    if c.canGoLeft then
      if c.left.stack.count = 0 then some (true, c.left) else followMin fuel c.left
    else if c.canGoRight then
      if c.right.stack.count = 0 then some (true, c.right) else followMin fuel c.right
    else climb fuel c

/-- `PathBase::goToMin` -/
def goToMin : ℕ → Walk σ → Option (Bool × Walk σ)
  | 0, _ => none
  | fuel + 1, c =>
    if c.canGoLeft then
      if c.left.stack.count = 0 then some (true, c.left) else goToMin fuel c.left
    else if c.canGoRight then
      if c.right.stack.count = 0 then some (true, c.right) else goToMin fuel c.right
    else next fuel c

end

mutual

/-- `PathBase::previous` -/
def previous : ℕ → Walk σ → Option (Bool × Walk σ)
  | 0, _ => none
  | fuel + 1, c =>
    if c.stack.size = 0 then
      if c.isDeadEnd then some (false, c) else goToMax fuel c
    else climbBack fuel c

/-- The climb of `previous` to the first left that was not taken. -/
def climbBack : ℕ → Walk σ → Option (Bool × Walk σ)
  | 0, _ => none
  | fuel + 1, c =>
    if c.stack.size = 0 then some (false, c)
    else
      let bit := c.stack.last
      let c := c.up
      if c.canGoLeft && bit == true then followMax fuel c.left else climbBack fuel c

/-- The loop of `previous` that follows the maximum. -/
def followMax : ℕ → Walk σ → Option (Bool × Walk σ)
  | 0, _ => none
  | fuel + 1, c =>
    if c.canGoRight then
      if c.right.stack.count = 0 then some (true, c.right) else followMax fuel c.right
    else if c.canGoLeft then
      if c.left.stack.count = 0 then some (true, c.left) else followMax fuel c.left
    else climbBack fuel c

/-- `PathBase::goToMax` -/
def goToMax : ℕ → Walk σ → Option (Bool × Walk σ)
  | 0, _ => none
  | fuel + 1, c =>
    if c.canGoRight then
      if c.right.stack.count = 0 then some (true, c.right) else goToMax fuel c.right
    else if c.canGoLeft then
      if c.left.stack.count = 0 then some (true, c.left) else goToMax fuel c.left
    else previous fuel c

end

/-- `stack.reset()` and `stack >> item`, after a walk that found a key. -/
def readItem {α : Type} [Encoded α] : Bool × Walk σ → Option (Option α × Walk σ)
  | (false, c) => some (none, c)
  | (true, c) =>
    (decode c.stack.reset).map fun (item, stack) => (some item, { c with stack := stack })

/-- `PathBase::next(stack, item)` -/
def nextItem {α : Type} [Encoded α] (fuel : ℕ) (c : Walk σ) : Option (Option α × Walk σ) :=
  (next fuel c).bind readItem

/-- The items of the calls that follow, after a call's own. -/
def moreItems {α : Type} (rest : Walk σ → Option (List α × Walk σ)) :
    Option α × Walk σ → Option (List α × Walk σ)
  | (none, c) => some ([], c)
  | (some item, c) => (rest c).map fun (items, c) => (item :: items, c)

/-- `next(stack, item)` again and again until it returns false. -/
def nextItems {α : Type} [Encoded α] : ℕ → Walk σ → Option (List α × Walk σ)
  | 0, _ => none
  | fuel + 1, c => (nextItem fuel c).bind (moreItems (nextItems fuel))

/-- `PathBase::min(value)`: the value, or none if it returns false or throws. -/
def min {α : Type} [Encoded α] (fuel : ℕ) (db : Database) (path : σ) : Option (Option α) :=
  ((goToMin fuel ⟨db, PathBase.copy path, .empty⟩).bind readItem).map Prod.fst

/-- `PathBase::max(value)`: the value, or none if it returns false or throws. -/
def max {α : Type} [Encoded α] (fuel : ℕ) (db : Database) (path : σ) : Option (Option α) :=
  ((goToMax fuel ⟨db, PathBase.copy path, .empty⟩).bind readItem).map Prod.fst

end Walk

end BeeFish
