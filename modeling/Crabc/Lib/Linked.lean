/-
  Crabc.Lib.Linked

  Singly linked lists.  `Linked next null head nodes` says that the links lead from
  `head` through `nodes` to `null`.  The links determine the nodes, so a list that ends
  has no node twice; what is written elsewhere leaves it alone.
-/

import Mathlib

namespace Crabc.Lib

open List

variable {α : Type*}

/-- From `head` the links lead through `nodes` to `null`. -/
def Linked (next : α → α) (null : α) : α → List α → Prop
  | head, [] => head = null
  | head, node :: nodes => head = node ∧ node ≠ null ∧ Linked next null (next node) nodes

namespace Linked

variable {next next' : α → α} {null head : α} {nodes nodes' : List α}

/-- A list that is not empty starts with its head. -/
theorem of_ne (h : Linked next null head nodes) (hne : head ≠ null) :
    ∃ rest, nodes = head :: rest ∧ Linked next null (next head) rest := by
  cases nodes with
  | nil => exact absurd h hne
  | cons node rest =>
    obtain ⟨rfl, -, hrest⟩ := h
    exact ⟨rest, rfl, hrest⟩

theorem eq_nil (h : Linked next null null nodes) : nodes = [] := by
  cases nodes with
  | nil => rfl
  | cons node rest => exact absurd h.1.symm h.2.1

section

variable (h : Linked next null head nodes)
include h

/-- Only the links of the nodes matter. -/
theorem congr (hsame : ∀ node ∈ nodes, next' node = next node) : Linked next' null head nodes := by
  induction nodes generalizing head with
  | nil => exact h
  | cons node rest ih =>
    obtain ⟨hhead, hne, hrest⟩ := h
    refine ⟨hhead, hne, ?_⟩
    rw [hsame node mem_cons_self]
    exact ih hrest fun other hother => hsame other (mem_cons_of_mem _ hother)

/-- The links determine the nodes. -/
theorem unique (h' : Linked next null head nodes') : nodes = nodes' := by
  induction nodes generalizing head nodes' with
  | nil =>
    cases nodes' with
    | nil => rfl
    | cons node' rest' =>
      obtain ⟨hhead, hne, -⟩ := h'
      exact absurd (hhead.symm.trans h) hne
  | cons node rest ih =>
    obtain ⟨rfl, hne, hrest⟩ := h
    obtain ⟨rest', rfl, hrest'⟩ := h'.of_ne hne
    rw [ih hrest hrest']

/-- The head is null or a node. -/
theorem head_mem : head = null ∨ head ∈ nodes := by
  cases nodes with
  | nil => exact .inl h
  | cons node rest => exact .inr (h.1 ▸ mem_cons_self)

end

variable {before after : List α}

/-- A suffix is the list from its first node on. -/
theorem suffix {node : α} (h : Linked next null head (before ++ node :: after)) :
    Linked next null node (node :: after) := by
  induction before generalizing head with
  | nil =>
    obtain ⟨rfl, hrest⟩ := h
    exact ⟨rfl, hrest⟩
  | cons first before ih => exact ih h.2.2

/-- A list is put behind a node of another one by changing the link of that node. -/
theorem append {last : α} (h : Linked next null head (before ++ last :: after))
    (hsame : ∀ node ∈ before, next' node = next node) (hnodes : Linked next' null (next' last) nodes) :
    Linked next' null head (before ++ last :: nodes) := by
  induction before generalizing head with
  | nil => exact ⟨h.1, h.2.1, hnodes⟩
  | cons node before ih =>
    obtain ⟨hhead, hne, hrest⟩ := h
    refine ⟨hhead, hne, ?_⟩
    rw [hsame node mem_cons_self]
    exact ih hrest fun other hother => hsame other (mem_cons_of_mem _ hother)

/-- No node comes twice: from its second place on the list would be longer than itself. -/
theorem nodup (h : Linked next null head nodes) : nodes.Nodup := by
  induction nodes generalizing head with
  | nil => exact .nil
  | cons node rest ih =>
    obtain ⟨rfl, hne, hrest⟩ := h
    refine nodup_cons.mpr ⟨fun hmem => ?_, ih hrest⟩
    obtain ⟨before, after, rfl⟩ := append_of_mem hmem
    obtain ⟨-, -, hafter⟩ := hrest.suffix
    have hlength := congrArg length (hrest.unique hafter)
    rw [length_append, length_cons] at hlength
    omega

end Linked

end Crabc.Lib
