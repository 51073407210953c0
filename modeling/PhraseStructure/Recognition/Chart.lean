import PhraseStructure.Budget
import PhraseStructure.Grammar
import PhraseStructure.Text.Blank
import Std.Data.HashSet

/-!
# Charts

A chart tells, for every position of an input, which rules may be under way there.  An *item* is a rule
with a dot that separates what has been found from what is expected, and the position where the rule
began.  The set of items at a position grows in three ways:

* an item that expects a nonterminal *predicts* the rules of that nonterminal;
* an item that expects the next symbol of the input is *scanned* into the set of the next position;
* an item that expects nothing more *completes* its rule and moves the dot of every item that was waiting
  for it where the rule began.

Items are processed in the order in which they came in, one step each.  A completion that began at the very
position where it ends can miss items that come in later; so when a sweep over the set met such a
completion and the set grew, the set is swept again.

## Main definitions

* `Rule`, `Item`, `ItemSet`: rules with a dot, and sets of them that keep their order.
* `Sweep`: the state of the work at one position.
* `Chart.build`: the sets of all positions, unless the steps run out.
-/

namespace PhraseStructure

/-- A single symbol and one word that may replace it. -/
structure Rule where
  /-- What is replaced. -/
  left : Symbol
  /-- What takes its place. -/
  right : Word
deriving DecidableEq, Hashable, Repr

/-- The rules that replace single symbols, in order. -/
def Grammar.rules (g : Grammar) : List Rule :=
  g.productions.flatMap fun p =>
    match p.singleLeft with
    | some c => p.alternatives.map (Rule.mk c)
    | none => []

/-- A rule under way: the dot tells how much was found, the origin where the rule began. -/
structure Item where
  /-- The rule. -/
  rule : Rule
  /-- How many symbols of its right side were found. -/
  dot : Nat
  /-- The position where it began. -/
  origin : Nat
deriving DecidableEq, Hashable, Repr

namespace Item

/-- The symbol that is expected next. -/
def next? (item : Item) : Option Symbol :=
  item.rule.right[item.dot]?

/-- Is nothing more expected? -/
def isComplete (item : Item) : Bool :=
  item.next?.isNone

/-- The item with one more symbol found. -/
def advance (item : Item) : Item :=
  { item with dot := item.dot + 1 }

/-- An item of the set at position `stop` as one line of text. -/
def text (item : Item) (stop : Nat) : String :=
  let right := item.rule.right
  let body :=
    if right = [] then "ε •".toList
    else Text.trim (right.take item.dot ++ " • ".toList ++ right.drop item.dot)
  item.rule.left.toString ++ " → " ++ String.ofList body ++ s!"  [{item.origin}, {stop}]"

end Item

/-- Items in the order in which they came in, none of them twice. -/
structure ItemSet where
  /-- The items in order. -/
  items : Array Item
  /-- The same items, for quick look-up. -/
  seen : Std.HashSet Item

namespace ItemSet

/-- The set without items. -/
def empty : ItemSet :=
  ⟨#[], ∅⟩

/-- The set with one more item at the end, unless it has the item already. -/
def insert (set : ItemSet) (item : Item) : ItemSet :=
  if set.seen.contains item then set
  else { set with items := set.items.push item, seen := set.seen.insert item }

/-- The set with several more items. -/
def insertAll (set : ItemSet) (items : List Item) : ItemSet :=
  items.foldl insert set

/-- How many items there are. -/
def size (set : ItemSet) : Nat :=
  set.items.size

end ItemSet

/-- The work at one position: its set of items, the set of the next position, the next item to process,
and whether this sweep has made the set grow and has met a completion that spans nothing. -/
structure Sweep where
  /-- The items of this position. -/
  current : ItemSet
  /-- The items of the next position. -/
  following : ItemSet
  /-- Which item is processed next. -/
  index : Nat
  /-- Did the set of this position grow? -/
  grew : Bool
  /-- Did a completion span nothing? -/
  nullable : Bool

namespace Sweep

/-- The work at a position before its first step. -/
def start (current : ItemSet) : Sweep where
  current
  following := .empty
  index := 0
  grew := false
  nullable := false

/-- The next item to process.  After the last item the set is swept again from its first one if it grew
and a completion spanned nothing. -/
def next? (sweep : Sweep) : Option (Item × Sweep) :=
  match sweep.current.items[sweep.index]? with
  | some item => some (item, { sweep with index := sweep.index + 1 })
  | none =>
    if sweep.grew && sweep.nullable then
      sweep.current.items[0]?.map fun item =>
        (item, { sweep with index := 1, grew := false, nullable := false })
    else
      none

/-- Adds items to the set of this position and notes whether it grew. -/
def add (sweep : Sweep) (items : List Item) : Sweep :=
  let size := sweep.current.size
  let sweep := { sweep with current := sweep.current.insertAll items }
  { sweep with grew := sweep.grew || size < sweep.current.size }

/-- The items of the set where a rule began; `earlier` holds the sets before this position. -/
def itemsAt (sweep : Sweep) (earlier : Array ItemSet) (origin : Nat) : Array Item :=
  if origin = earlier.size then sweep.current.items
  else (earlier[origin]?.map ItemSet.items).getD #[]

/-- Rules of a nonterminal that may begin at a position. -/
def predicted (rules : List Rule) (c : Symbol) (position : Nat) : List Item :=
  (rules.filter fun rule => rule.left = c).map fun rule => ⟨rule, 0, position⟩

/-- Items whose dot moves because the symbol they wait for was found. -/
def advanced (items : Array Item) (c : Symbol) : List Item :=
  (items.toList.filter fun item => item.next? = some c).map Item.advance

/-- Processes one item.  The position is the number of earlier sets, and `input` is the symbol there. -/
def process (v : Vocabulary) (rules : List Rule) (earlier : Array ItemSet) (input : Option Symbol)
    (sweep : Sweep) (item : Item) : Sweep :=
  match item.next? with
  | some c =>
    if v.isNonterminal c then
      sweep.add (predicted rules c earlier.size)
    else if input = some c then
      { sweep with following := sweep.following.insert item.advance }
    else
      sweep
  | none =>
    let items := advanced (sweep.itemsAt earlier item.origin) item.rule.left
    { sweep with nullable := sweep.nullable || item.origin = earlier.size }.add items

/-- Processes items until none is left, and tells how many steps remain; `none` if they run out. -/
def finish (v : Vocabulary) (rules : List Rule) (earlier : Array ItemSet) (input : Option Symbol) :
    Nat → Sweep → Option (Nat × Sweep)
  | 0, sweep =>
    match sweep.next? with
    | none => some (0, sweep)
    | some _ => none
  | steps + 1, sweep =>
    match sweep.next? with
    | none => some (steps + 1, sweep)
    | some (item, sweep) =>
      finish v rules earlier input steps (process v rules earlier input sweep item)

end Sweep

/-- The sets of items of all positions of an input, from its front to its end. -/
abbrev Chart := Array ItemSet

namespace Chart

/-- Completes the sets from the current position to the end of the input. -/
def fill (v : Vocabulary) (rules : List Rule) : Word → Chart → ItemSet → Nat → Option Chart
  | [], earlier, current, steps =>
    (Sweep.finish v rules earlier none steps (.start current)).map fun (_, sweep) =>
      earlier.push sweep.current
  | c :: rest, earlier, current, steps =>
    match Sweep.finish v rules earlier (some c) steps (.start current) with
    | none => none
    | some (steps, sweep) => fill v rules rest (earlier.push sweep.current) sweep.following steps

/-- The chart of an input; `none` if it takes more steps than allowed. -/
def build (g : Grammar) (steps : Nat) (w : Word) : Option Chart :=
  fill g.vocabulary g.rules w #[] (ItemSet.empty.insertAll (Sweep.predicted g.rules g.start 0)) steps

/-- The items at a position. -/
def itemsAt (chart : Chart) (position : Nat) : List Item :=
  (chart[position]?.map fun set => set.items.toList).getD []

/-- The items at a position whose rules are complete there. -/
def completedAt (chart : Chart) (position : Nat) : List Item :=
  (chart.itemsAt position).filter Item.isComplete

/-- Is a rule of `c` complete at the end of an input of `n` symbols that began at its front? -/
def accepts (chart : Chart) (c : Symbol) (n : Nat) : Bool :=
  (chart.completedAt n).any fun item => item.origin = 0 && item.rule.left = c

end Chart

end PhraseStructure
