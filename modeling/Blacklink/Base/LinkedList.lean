import Mathlib.Data.List.Nodup
import Mathlib.Data.List.Infix
import Mathlib.Logic.Function.Basic
import Blacklink.Base.LinkedTree

/-!
# Linked lists in a memory

Nodes at addresses that point to one another, and the addresses along them from one pointer to
another (`Chain`). What is needed of a memory is where its nodes point, so a list that is linked
both ways is two of these, one for each direction; they are inverse to one another when the
addresses of one are those of the other from behind (`Chain.inverse`). A list stays as it is
when its nodes point where they did (`Chain.congr`); nodes are put behind it, taken from its front
and taken from between others by changing where one or two nodes point.
-/

namespace Blacklink.Base

/-- Where the nodes at the addresses of a memory point; nothing where there is no node. -/
abbrev Links := Ptr → Option (Option Ptr)

/-- From `start` the nodes at the addresses point to one another, and the last one to `stop`. -/
def Chain (link : Links) : Option Ptr → List Ptr → Option Ptr → Prop
  | start, [], stop => start = stop
  | start, p :: ps, stop => start = some p ∧ ∃ next, link p = some next ∧ Chain link next ps stop

variable {link link' : Links} {start stop stop' : Option Ptr} {ps qs : List Ptr} {p q : Ptr}

theorem chain_cons :
    Chain link start (p :: ps) stop ↔
      start = some p ∧ ∃ next, link p = some next ∧ Chain link next ps stop := Iff.rfl

/-- Two lists behind one another. -/
theorem chain_append :
    Chain link start (ps ++ qs) stop ↔
      ∃ mid, Chain link start ps mid ∧ Chain link mid qs stop := by
  induction ps generalizing start with
  | nil =>
    constructor
    · intro h
      exact ⟨start, rfl, h⟩
    · rintro ⟨mid, rfl, h⟩
      exact h
  | cons p ps ih =>
    rw [List.cons_append, chain_cons]
    constructor
    · rintro ⟨hstart, next, hnext, h⟩
      obtain ⟨mid, hps, hqs⟩ := ih.mp h
      exact ⟨mid, ⟨hstart, next, hnext, hps⟩, hqs⟩
    · rintro ⟨mid, ⟨hstart, next, hnext, hps⟩, hqs⟩
      exact ⟨hstart, next, hnext, ih.mpr ⟨mid, hps, hqs⟩⟩

namespace Chain

/-- A list is still there when its nodes point where they did. -/
theorem congr (h : Chain link start ps stop) (heq : ∀ x ∈ ps, link' x = link x) :
    Chain link' start ps stop := by
  induction ps generalizing start with
  | nil => exact h
  | cons p ps ih =>
    obtain ⟨hstart, next, hnext, h⟩ := h
    refine ⟨hstart, next, (heq p List.mem_cons_self).trans hnext, ih h fun x hx => ?_⟩
    exact heq x (List.mem_cons_of_mem p hx)

/-- A list starts with its first address. -/
theorem start_eq (h : Chain link start ps none) : start = ps.head? := by
  cases ps with
  | nil => exact h
  | cons p ps => exact h.1

/-- A node of a list points to the address behind its own. -/
theorem link_eq (h : Chain link start (ps ++ p :: qs) none) : link p = some qs.head? := by
  obtain ⟨mid, -, -, next, hnext, hqs⟩ := chain_append.mp h
  rw [hnext, hqs.start_eq]

/-- What is behind the first node is a list from where it points. -/
theorem tail (h : Chain link start (p :: ps) none) : Chain link ps.head? ps none := by
  obtain ⟨-, next, -, hps⟩ := h
  rwa [← hps.start_eq]

/-- The last node points to somewhere else. -/
theorem relink (h : Chain link start (ps ++ [p]) stop) (heq : ∀ x ∈ ps, link' x = link x)
    (hlast : link' p = some stop') : Chain link' start (ps ++ [p]) stop' := by
  obtain ⟨mid, hps, hmid, next, hnext, rfl⟩ := chain_append.mp h
  exact chain_append.mpr ⟨mid, hps.congr heq, hmid, stop', hlast, rfl⟩

/-- A node is put in front. -/
theorem cons (h : Chain link start ps none) (heq : ∀ x ∈ ps, link' x = link x)
    (hfirst : link' p = some start) : Chain link' (some p) (p :: ps) none :=
  ⟨rfl, start, hfirst, h.congr heq⟩

/-- A node is put behind the last one. -/
theorem concat (h : Chain link start (ps ++ [q]) none) (heq : ∀ x ∈ ps, link' x = link x)
    (hlast : link' q = some (some p)) (hnew : link' p = some none) :
    Chain link' start (ps ++ [q] ++ [p]) none :=
  chain_append.mpr ⟨some p, h.relink heq hlast, rfl, none, hnew, rfl⟩

/-- A node is taken from between two parts, the last node of the first one pointing to the second
one instead. -/
theorem unlink (h : Chain link start (ps ++ [q] ++ p :: qs) none)
    (hps : ∀ x ∈ ps, link' x = link x) (hqs : ∀ x ∈ qs, link' x = link x)
    (hq : link' q = some qs.head?) : Chain link' start (ps ++ [q] ++ qs) none := by
  obtain ⟨mid, hfront, hback⟩ := chain_append.mp h
  exact chain_append.mpr ⟨qs.head?, hfront.relink hps hq, hback.tail.congr hqs⟩

/-- A node points to another one exactly if that is behind it. -/
theorem link_eq_some_iff (h : Chain link start ps none) (hnodup : ps.Nodup) (hp : p ∈ ps) :
    link p = some (some q) ↔ [p, q] <:+: ps := by
  constructor
  · intro hlink
    obtain ⟨front, back, rfl⟩ := List.append_of_mem hp
    have hhead := Option.some.inj (h.link_eq.symm.trans hlink)
    cases back with
    | nil => cases hhead
    | cons r back =>
      cases hhead
      exact ⟨front, back, by simp⟩
  · rintro ⟨front, back, rfl⟩
    rw [List.append_assoc] at h
    exact h.link_eq

/-- The links of the two directions are inverse. -/
theorem inverse {back : Links} {last : Option Ptr} (h : Chain link start ps none)
    (hback : Chain back last ps.reverse none) (hnodup : ps.Nodup) (hp : p ∈ ps) (hq : q ∈ ps) :
    link p = some (some q) ↔ back q = some (some p) := by
  rw [h.link_eq_some_iff hnodup hp,
    hback.link_eq_some_iff (List.nodup_reverse.mpr hnodup) (List.mem_reverse.mpr hq)]
  have hreverse : [q, p] = [p, q].reverse := rfl
  rw [hreverse, List.reverse_infix]

end Chain

end Blacklink.Base
