/-
# Library.LinkedList -- singly linked lists in a memory of nodes

A list whose nodes live in a memory is a link to its first node and, for every
node, a link to the next one.  `Chain next link nodes` says that following
`next` from `link` visits exactly `nodes`, in order, and then stops.  A chain is
finite by definition, so its nodes are distinct (`Chain.nodup`): an acyclic
list is one that is a chain of something.

The surgery lemmas are the two every list program is made of: a node outside
the list is pushed in front (`Chain.push`), and a node is bypassed
(`Chain.unlink`, `Chain.unlinkHead`).  All of them speak of `next` only at the
nodes involved, so they apply to any memory update that agrees there.
-/
import Mathlib

namespace TestOs.Library

set_option autoImplicit false

variable {α : Type}

/-- Following `next` from `link` visits exactly the listed nodes and then ends. -/
def Chain (next : α → Option α) : Option α → List α → Prop
  | link, [] => link = none
  | link, a :: rest => link = some a ∧ Chain next (next a) rest

instance instDecidableChain [DecidableEq α] (next : α → Option α) : ∀ link nodes, Decidable (Chain next link nodes)
  | link, [] => inferInstanceAs (Decidable (link = none))
  | link, a :: rest =>
      have := instDecidableChain next (next a) rest
      inferInstanceAs (Decidable (link = some a ∧ Chain next (next a) rest))

/-- The nodes that `fuel` steps along `next` visit. -/
def walk (next : α → Option α) : Nat → Option α → List α
  | 0, _ => []
  | _ + 1, none => []
  | fuel + 1, some a => a :: walk next fuel (next a)

namespace Chain

variable {next next' : α → Option α}

@[simp] theorem nil_iff {link : Option α} : Chain next link [] ↔ link = none := Iff.rfl

@[simp] theorem cons_iff {link : Option α} {a : α} {rest : List α} :
    Chain next link (a :: rest) ↔ link = some a ∧ Chain next (next a) rest := Iff.rfl

theorem head_eq {link : Option α} {nodes : List α} (chain : Chain next link nodes) :
    link = nodes.head? := by
  cases nodes with
  | nil => exact chain
  | cons a rest => exact chain.1

/-- A chain of at most `fuel` nodes is walked to its end in `fuel` steps. -/
theorem walk_eq {link : Option α} {nodes : List α} {fuel : Nat} (chain : Chain next link nodes)
    (short : nodes.length ≤ fuel) : walk next fuel link = nodes := by
  induction nodes generalizing link fuel with
  | nil =>
      obtain rfl : link = none := chain
      cases fuel <;> rfl
  | cons a rest ih =>
      obtain ⟨rfl, tail⟩ := chain
      cases fuel with
      | zero => simp at short
      | succ fuel => rw [walk, ih tail (by simpa using short)]

/-- A memory holds at most one list at a link. -/
theorem unique {link : Option α} {nodes nodes' : List α} (chain : Chain next link nodes)
    (chain' : Chain next link nodes') : nodes = nodes' := by
  induction nodes generalizing link nodes' with
  | nil =>
      cases nodes' with
      | nil => rfl
      | cons b rest' =>
          obtain rfl : link = none := chain
          exact absurd chain'.1 (by simp)
  | cons a rest ih =>
      obtain ⟨rfl, tail⟩ := chain
      cases nodes' with
      | nil => exact absurd chain' (by simp)
      | cons b rest' =>
          obtain ⟨same, tail'⟩ := chain'
          cases same
          rw [ih tail tail']

/-- The part of a chain from one of its nodes on is a chain from that node. -/
theorem suffix {link : Option α} {front : List α} {a : α} {rest : List α}
    (chain : Chain next link (front ++ a :: rest)) : Chain next (some a) (a :: rest) := by
  induction front generalizing link with
  | nil => exact ⟨rfl, chain.2⟩
  | cons b front ih => exact ih chain.2

/-- A chain never visits a node twice: the rest after both visits would be the
same list, and one is longer. -/
theorem nodup {link : Option α} {nodes : List α} (chain : Chain next link nodes) :
    nodes.Nodup := by
  induction nodes generalizing link with
  | nil => exact List.nodup_nil
  | cons a rest ih =>
      refine List.nodup_cons.2 ⟨fun again => ?_, ih chain.2⟩
      obtain ⟨front, back, rfl⟩ := List.append_of_mem again
      have whole : Chain next (some a) (a :: (front ++ a :: back)) := ⟨rfl, chain.2⟩
      have shorter : Chain next (some a) (a :: back) := suffix chain.2
      have same := unique whole shorter
      have lengths := congrArg List.length same
      simp only [List.length_cons, List.length_append] at lengths
      omega

theorem congr {link : Option α} {nodes : List α} (agree : ∀ a ∈ nodes, next' a = next a)
    (chain : Chain next link nodes) : Chain next' link nodes := by
  induction nodes generalizing link with
  | nil => exact chain
  | cons a rest ih =>
      refine ⟨chain.1, ?_⟩
      rw [agree a List.mem_cons_self]
      exact ih (fun b member => agree b (List.mem_cons_of_mem a member)) chain.2

/-- Push: a node outside the list that points at its head is a longer list. -/
theorem push {link : Option α} {nodes : List α} {a : α} (chain : Chain next link nodes)
    (outside : a ∉ nodes) (agree : ∀ b, b ≠ a → next' b = next b) (points : next' a = link) :
    Chain next' (some a) (a :: nodes) := by
  refine ⟨rfl, ?_⟩
  rw [points]
  exact chain.congr fun b member => agree b fun same => outside (same ▸ member)

/-- Unlinking the first node leaves the list at its `next`. -/
theorem unlinkHead {link : Option α} {a : α} {rest : List α}
    (chain : Chain next link (a :: rest)) : Chain next (next a) rest := chain.2

/-- Unlinking an inner node: its predecessor takes over its `next`. -/
theorem unlink {link : Option α} {front : List α} {p a : α} {rest : List α}
    (chain : Chain next link (front ++ p :: a :: rest))
    (agree : ∀ b, b ≠ p → next' b = next b) (bypass : next' p = next a) :
    Chain next' link (front ++ p :: rest) := by
  have distinct := chain.nodup
  induction front generalizing link with
  | nil =>
      obtain ⟨rfl, tail⟩ := chain
      refine ⟨rfl, ?_⟩
      rw [bypass]
      refine tail.2.congr fun b member => agree b fun same => ?_
      subst same
      simp [member] at distinct
  | cons b front ih =>
      refine ⟨chain.1, ?_⟩
      have notPred : b ≠ p := by
        rintro rfl
        simp at distinct
      rw [agree b notPred]
      exact ih chain.2 (List.nodup_cons.1 distinct).2

/-- A chain within a set of nodes is no longer than the set is large. -/
theorem length_le_card [DecidableEq α] {link : Option α} {nodes : List α} {s : Finset α}
    (chain : Chain next link nodes) (inside : ∀ a ∈ nodes, a ∈ s) : nodes.length ≤ s.card := by
  rw [← List.toFinset_card_of_nodup chain.nodup]
  exact Finset.card_le_card fun a member => inside a (List.mem_toFinset.1 member)

end Chain

end TestOs.Library
