import Std.Data.TreeSet
import Straightline.Fault

/-! Chains. A chain is a sequence that grows at its end and before any of its elements without
moving the elements it has: every element keeps the handle it was given, and two-way links spell the
order. What a chain stands for is its list of entries; the links are how the order is kept. -/
namespace Straightline

structure Link (α : Type) where
  value : α
  before : Option Handle
  after : Option Handle
  deriving DecidableEq, Repr

structure Chain (α : Type) where
  links : Array (Link α)
  first : Option Handle
  last : Option Handle
  size : Nat
  deriving DecidableEq, Repr

namespace Chain

variable {α : Type}

def empty : Chain α := ⟨#[], none, none, 0⟩

def fresh (c : Chain α) : Handle := c.links.size

def link (c : Chain α) (handle : Option Handle) : Except Fault (Link α) := do
  let h ← present handle
  match c.links[h]? with
  | some l => .ok l
  | none => .error (.outOfBounds c.links.size h)

def get (c : Chain α) (handle : Option Handle) : Except Fault α :=
  (c.link handle).map Link.value

def next (c : Chain α) (handle : Option Handle) : Except Fault (Option Handle) :=
  (c.link handle).map Link.after

def prev (c : Chain α) (handle : Option Handle) : Except Fault (Option Handle) :=
  (c.link handle).map Link.before

def modify (c : Chain α) (h : Handle) (f : α → α) : Chain α :=
  {c with links := c.links.modify h fun l => {l with value := f l.value}}

def setAfter (links : Array (Link α)) (handle after : Option Handle) : Array (Link α) :=
  match handle with
  | some h => links.modify h fun l => {l with after}
  | none => links

def setBefore (links : Array (Link α)) (handle before : Option Handle) : Array (Link α) :=
  match handle with
  | some h => links.modify h fun l => {l with before}
  | none => links

def push (c : Chain α) (value : α) : Chain α where
  links := (setAfter c.links c.last (some c.fresh)).push ⟨value, c.last, none⟩
  first := c.first <|> some c.fresh
  last := some c.fresh
  size := c.size + 1

def checkBefore (c : Chain α) (h : Handle) : Option Handle → Except Fault Unit
  | some p => do
    let l ← c.link (some p)
    if l.after = some h then .ok () else .error (.looseLink h)
  | none => if c.first = some h then .ok () else .error (.looseFirst c.first h)

def splice (c : Chain α) (before : Option Handle) (h : Handle) (value : α) : Chain α where
  links := (setBefore (setAfter c.links before (some c.fresh)) (some h) (some c.fresh)).push
    ⟨value, before, some h⟩
  first := if before.isSome then c.first else some c.fresh
  last := c.last
  size := c.size + 1

def insertBefore (c : Chain α) (handle : Option Handle) (value : α) :
    Except Fault (Chain α) := do
  let h ← present handle
  let l ← c.link (some h)
  c.checkBefore h l.before
  .ok (c.splice l.before h value)

def ofList (values : List α) : Chain α := values.foldl push empty

def walk (c : Chain α) : Nat → Option Handle → List Handle
  | n + 1, some h => h :: c.walk n (c.links[h]?.bind (·.after))
  | _, _ => []

def handles (c : Chain α) : List Handle := c.walk c.size c.first

def entries (c : Chain α) : List (Handle × α) :=
  c.handles.filterMap fun h => c.links[h]?.map fun l => (h, l.value)

def values (c : Chain α) : List α := c.entries.map Prod.snd

def assign (c : Chain α) (entries : List (Handle × α)) : Chain α :=
  entries.foldl (fun c e => c.modify e.1 fun _ => e.2) c

/-- Follows the links forward from `handle`, having come from `prev` through the handles `seen`, and
gives the last handle met and how many there were. -/
def trail (c : Chain α) : Nat → Std.TreeSet Handle → Option Handle → Option Handle →
    Except Fault (Option Handle × Nat)
  | _, seen, prev, none => .ok (prev, seen.size)
  | 0, _, _, some h => .error (.cycle h)
  | n + 1, seen, prev, some h => do
    if seen.contains h then .error (.cycle h)
    let l ← c.link (some h)
    if l.before ≠ prev then .error (.beforeMismatch h l.before prev)
    c.trail n (seen.insert h) (some h) l.after

def validate (c : Chain α) : Except Fault Unit := do
  let (last, linked) ← c.trail (c.links.size + 1) ∅ none c.first
  if last ≠ c.last then .error (.lastMismatch last c.last)
  if linked ≠ c.size then .error (.sizeMismatch linked c.size)

structure Cursor where
  front : Option Handle
  back : Option Handle
  remaining : Nat
  deriving DecidableEq, Repr

def cursor (c : Chain α) : Cursor := ⟨c.first, c.last, c.size⟩

def Cursor.next (p : Cursor) (c : Chain α) : Except Fault (Option Handle × Cursor) :=
  if p.remaining = 0 then .ok (none, p) else do
    let l ← c.link p.front
    .ok (p.front, {p with front := l.after, remaining := p.remaining - 1})

def Cursor.nextBack (p : Cursor) (c : Chain α) : Except Fault (Option Handle × Cursor) :=
  if p.remaining = 0 then .ok (none, p) else do
    let l ← c.link p.back
    .ok (p.back, {p with back := l.before, remaining := p.remaining - 1})

end Chain
end Straightline
