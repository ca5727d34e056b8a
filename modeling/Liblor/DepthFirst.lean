import Mathlib

/-!
# Depth-first search

A search finishes a node behind its children, once, and fails at a node that it does not know or
that it comes back to from below. It succeeds if neither can be reached, and then it has finished
exactly the nodes that can be reached, each behind its children.

An error is `none` if the fuel has run out, which it does not if it exceeds the number of known
nodes.
-/

namespace DepthFirst

open Relation

universe u v w

structure Search (α : Type u) (β : Type v) where
  visiting : Finset α
  visited : Finset α
  result : List β
  deriving DecidableEq

def Search.empty {α : Type u} {β : Type v} : Search α β := ⟨∅, ∅, []⟩

variable {α : Type u} {β : Type v} {ε : Type w}

section Definitions

variable (expand : α → Except ε (List α × β)) (cyclic : α → ε)

/-- Visits a node, of which `expand` gives the children and what is recorded of it. -/
def visit [DecidableEq α] : ℕ → Search α β → α → Except (Option ε) (Search α β)
  | 0, _, _ => .error none
  | fuel + 1, s, a =>
    if a ∈ s.visited then .ok s
    else if a ∈ s.visiting then .error (some (cyclic a))
    else
      match expand a with
      | .error e => .error (some e)
      | .ok (children, b) =>
        match children.foldlM (visit fuel) { s with visiting := insert a s.visiting } with
        | .error e => .error e
        | .ok s => .ok ⟨s.visiting.erase a, insert a s.visited, s.result ++ [b]⟩

def visitAll [DecidableEq α] (fuel : ℕ) (s : Search α β) (targets : List α) :
    Except (Option ε) (Search α β) :=
  targets.foldlM (visit expand cyclic fuel) s

def Edge (a c : α) : Prop := ∃ children b, expand a = .ok (children, b) ∧ c ∈ children

/-- Nodes in the order in which they were finished, and what was recorded of them. -/
inductive Finished : List α → List β → Prop where
  | nil : Finished [] []
  | snoc {order : List α} {result : List β} {a : α} {children : List α} {b : β}
      (h : Finished order result) (hexpand : expand a = .ok (children, b))
      (hbefore : ∀ c ∈ children, c ∈ order) (hnew : a ∉ order) :
      Finished (order ++ [a]) (result ++ [b])

structure Sound (s : Search α β) (order : List α) : Prop where
  visited : ∀ a, a ∈ s.visited ↔ a ∈ order
  finished : Finished expand order s.result

/-- The search has gone on and finished `more`, among it the targets. -/
structure Extends (s : Search α β) (order targets : List α) (s' : Search α β) (more : List α) :
    Prop where
  visiting : s'.visiting = s.visiting
  sound : Sound expand s' (order ++ more)
  covers : ∀ t ∈ targets, t ∈ order ++ more
  fresh : ∀ x ∈ more, x ∉ s.visiting
  reached : ∀ x ∈ more, ∃ t ∈ targets, ReflTransGen (Edge expand) t x

/-- A node is reached that is not known or that lies on a cycle, and the error says which. -/
def Faulty (a : α) (e : ε) : Prop :=
  ∃ c, ReflTransGen (Edge expand) a c ∧
    (expand c = .error e ∨ e = cyclic c ∧ TransGen (Edge expand) c c)

/-- Everything that can be reached is known and lies on no cycle. -/
def Sane (roots : List α) : Prop :=
  ∀ r ∈ roots, ∀ a, ReflTransGen (Edge expand) r a →
    (∃ children b, expand a = .ok (children, b)) ∧ ¬ TransGen (Edge expand) a a

inductive Outcome (s : Search α β) (order targets : List α) :
    Except (Option ε) (Search α β) → Prop where
  | ok {s' : Search α β} (more : List α) (h : Extends expand s order targets s' more) :
      Outcome s order targets (.ok s')
  | error {t : α} {e : ε} (ht : t ∈ targets) (h : Faulty expand cyclic t e) :
      Outcome s order targets (.error (some e))

end Definitions

variable {expand : α → Except ε (List α × β)} {cyclic : α → ε}

section Finished

variable {order : List α} {result : List β}

theorem Finished.nodup (h : Finished expand order result) : order.Nodup := by
  induction h with
  | nil => exact List.nodup_nil
  | snoc h hexpand hbefore hnew ih =>
      rw [List.nodup_append_comm]
      exact List.nodup_cons.2 ⟨hnew, ih⟩

theorem Finished.known (h : Finished expand order result) {a : α} (ha : a ∈ order) :
    ∃ children b, expand a = .ok (children, b) ∧ ∀ c ∈ children, c ∈ order := by
  induction h with
  | nil => cases ha
  | @snoc order result last children b h hexpand hbefore hnew ih =>
      rcases List.mem_append.1 ha with hold | hlast
      · obtain ⟨children', b', hexpand', hbefore'⟩ := ih hold
        exact ⟨children', b', hexpand', fun c hc => List.mem_append_left _ (hbefore' c hc)⟩
      · rw [List.mem_singleton.1 hlast]
        exact ⟨children, b, hexpand, fun c hc => List.mem_append_left _ (hbefore c hc)⟩

theorem Finished.edge (h : Finished expand order result) {a c : α} (ha : a ∈ order)
    (hedge : Edge expand a c) : c ∈ order := by
  obtain ⟨children, b, hexpand, hbefore⟩ := h.known ha
  obtain ⟨children', b', hexpand', hc⟩ := hedge
  rw [hexpand] at hexpand'
  cases hexpand'
  exact hbefore c hc

theorem Finished.closed (h : Finished expand order result) {a c : α} (ha : a ∈ order)
    (hreach : ReflTransGen (Edge expand) a c) : c ∈ order := by
  induction hreach with
  | refl => exact ha
  | tail _ hedge ih => exact h.edge ih hedge

theorem Finished.acyclic (h : Finished expand order result) {a : α} (ha : a ∈ order) :
    ¬ TransGen (Edge expand) a a := by
  induction h with
  | nil => cases ha
  | @snoc order result last children b h hexpand hbefore hnew ih =>
      rcases List.mem_append.1 ha with hold | hlast
      · exact ih hold
      · rw [List.mem_singleton.1 hlast]
        intro hcycle
        obtain ⟨c, hedge, hback⟩ := TransGen.head'_iff.1 hcycle
        obtain ⟨children', b', hexpand', hc⟩ := hedge
        rw [hexpand] at hexpand'
        cases hexpand'
        exact hnew (h.closed (hbefore c hc) hback)

theorem Finished.recorded (h : Finished expand order result) :
    List.Forall₂ (fun a b => ∃ children, expand a = .ok (children, b)) order result := by
  induction h with
  | nil => exact List.Forall₂.nil
  | snoc h hexpand hbefore hnew ih =>
      exact List.rel_append ih (List.Forall₂.cons ⟨_, hexpand⟩ List.Forall₂.nil)

/-- The children of a finished node stand before it. -/
theorem Finished.before (h : Finished expand order result) {first rest : List α} {a c : α}
    (hsplit : order = first ++ a :: rest) (hedge : Edge expand a c) : c ∈ first := by
  induction h generalizing rest with
  | nil =>
      have hlength := congrArg List.length hsplit
      simp at hlength
  | @snoc order result last children b h hexpand hbefore hnew ih =>
      rcases List.eq_nil_or_concat rest with rfl | ⟨rest, z, rfl⟩
      · obtain ⟨rfl, hlast⟩ := List.append_inj' hsplit rfl
        cases hlast
        obtain ⟨children', b', hexpand', hc⟩ := hedge
        rw [hexpand] at hexpand'
        cases hexpand'
        exact hbefore c hc
      · have hassoc : first ++ a :: (rest ++ [z]) = (first ++ a :: rest) ++ [z] := by simp
        rw [List.concat_eq_append, hassoc] at hsplit
        exact ih (List.append_inj' hsplit rfl).1

end Finished

section Visit

variable [DecidableEq α] {s : Search α β} {order : List α} {known : Finset α}

/-- All nodes on the way to the target are being visited. -/
def Below (expand : α → Except ε (List α × β)) (s : Search α β) (target : α) : Prop :=
  ∀ v ∈ s.visiting, TransGen (Edge expand) v target

theorem visitAll_spec {fuel : ℕ} (targets : List α)
    (hvisit : ∀ (s : Search α β) (order : List α) (a : α), (known \ s.visiting).card < fuel →
      Sound expand s order → Below expand s a →
        Outcome expand cyclic s order [a] (visit expand cyclic fuel s a))
    (hfuel : (known \ s.visiting).card < fuel) (hsound : Sound expand s order)
    (hbelow : ∀ t ∈ targets, Below expand s t) :
    Outcome expand cyclic s order targets (visitAll expand cyclic fuel s targets) := by
  induction targets generalizing s order with
  | nil =>
      refine Outcome.ok [] ⟨rfl, ?_, by simp, by simp, by simp⟩
      rwa [List.append_nil]
  | cons t targets ih =>
      have hfirst := hvisit s order t hfuel hsound (hbelow t List.mem_cons_self)
      rw [visitAll, List.foldlM_cons]
      cases hresult : visit expand cyclic fuel s t with
      | error e =>
          rw [hresult] at hfirst
          cases hfirst with
          | error hmem hfaulty =>
              rw [List.mem_singleton] at hmem
              exact Outcome.error (List.mem_cons.2 (Or.inl hmem)) hfaulty
      | ok s' =>
          rw [hresult] at hfirst
          cases hfirst with
          | ok more hmore =>
              have hfuel' : (known \ s'.visiting).card < fuel := by
                rw [hmore.visiting]
                exact hfuel
              have hrest := ih hfuel' hmore.sound fun t' ht' v hv =>
                hbelow t' (List.mem_cons_of_mem _ ht') v (hmore.visiting ▸ hv)
              change Outcome expand cyclic s order (t :: targets)
                (visitAll expand cyclic fuel s' targets)
              cases hlast : visitAll expand cyclic fuel s' targets with
              | error e =>
                  rw [hlast] at hrest
                  cases hrest with
                  | error hmem hfaulty => exact Outcome.error (List.mem_cons_of_mem _ hmem) hfaulty
              | ok s'' =>
                  rw [hlast] at hrest
                  cases hrest with
                  | @ok _ more' hmore' =>
                      refine Outcome.ok (more ++ more') ⟨?_, ?_, ?_, ?_, ?_⟩
                      · exact hmore'.visiting.trans hmore.visiting
                      · rw [← List.append_assoc]
                        exact hmore'.sound
                      · rw [← List.append_assoc]
                        intro t' ht'
                        rcases List.mem_cons.1 ht' with rfl | ht'
                        · exact List.mem_append_left _ (hmore.covers t' List.mem_cons_self)
                        · exact hmore'.covers t' ht'
                      · intro x hx
                        rcases List.mem_append.1 hx with hx | hx
                        · exact hmore.fresh x hx
                        · rw [← hmore.visiting]
                          exact hmore'.fresh x hx
                      · intro x hx
                        rcases List.mem_append.1 hx with hx | hx
                        · obtain ⟨t', ht', hreach⟩ := hmore.reached x hx
                          rw [List.mem_singleton.1 ht'] at hreach
                          exact ⟨t, List.mem_cons_self, hreach⟩
                        · obtain ⟨t', ht', hreach⟩ := hmore'.reached x hx
                          exact ⟨t', List.mem_cons_of_mem _ ht', hreach⟩

theorem visit_spec (hknown : ∀ a children b, expand a = .ok (children, b) → a ∈ known) (fuel : ℕ)
    (s : Search α β) (order : List α) (a : α) (hfuel : (known \ s.visiting).card < fuel)
    (hsound : Sound expand s order) (hbelow : Below expand s a) :
    Outcome expand cyclic s order [a] (visit expand cyclic fuel s a) := by
  induction fuel generalizing s order a with
  | zero => exact absurd hfuel (Nat.not_lt_zero _)
  | succ fuel ih =>
      rw [visit]
      by_cases hvisited : a ∈ s.visited
      · rw [if_pos hvisited]
        refine Outcome.ok [] ⟨rfl, ?_, ?_, by simp, by simp⟩
        · rwa [List.append_nil]
        · rw [List.append_nil, List.forall_mem_singleton]
          exact (hsound.visited a).1 hvisited
      rw [if_neg hvisited]
      by_cases hvisiting : a ∈ s.visiting
      · rw [if_pos hvisiting]
        exact Outcome.error List.mem_cons_self
          ⟨a, ReflTransGen.refl, Or.inr ⟨rfl, hbelow a hvisiting⟩⟩
      rw [if_neg hvisiting]
      cases hexpand : expand a with
      | error e =>
          exact Outcome.error List.mem_cons_self ⟨a, ReflTransGen.refl, Or.inl hexpand⟩
      | ok p =>
          obtain ⟨children, b⟩ := p
          have hedge : ∀ c ∈ children, Edge expand a c := fun c hc => ⟨children, b, hexpand, hc⟩
          have hless : (known \ insert a s.visiting).card < fuel := by
            have hmem : a ∈ known \ s.visiting :=
              Finset.mem_sdiff.2 ⟨hknown a children b hexpand, hvisiting⟩
            have herase : known \ insert a s.visiting = (known \ s.visiting).erase a := by
              rw [Finset.sdiff_insert]
            have hpositive := Finset.card_pos.2 ⟨a, hmem⟩
            rw [herase, Finset.card_erase_of_mem hmem]
            omega
          have hbelow' : ∀ c ∈ children,
              Below expand { s with visiting := insert a s.visiting } c := by
            intro c hc v hv
            rcases Finset.mem_insert.1 hv with rfl | hv
            · exact TransGen.single (hedge c hc)
            · exact (hbelow v hv).tail (hedge c hc)
          have hsound' : Sound expand { s with visiting := insert a s.visiting } order :=
            ⟨hsound.visited, hsound.finished⟩
          have hchildren := visitAll_spec children (fun s order c => ih s order c) hless hsound'
            hbelow'
          unfold visitAll at hchildren
          dsimp only
          cases hresult : children.foldlM (visit expand cyclic fuel)
              { s with visiting := insert a s.visiting } with
          | error e =>
              rw [hresult] at hchildren
              cases hchildren with
              | error hmem hfaulty =>
                  obtain ⟨c, hreach, hc⟩ := hfaulty
                  exact Outcome.error List.mem_cons_self ⟨c, hreach.head (hedge _ hmem), hc⟩
          | ok s' =>
              rw [hresult] at hchildren
              cases hchildren with
              | ok more hmore =>
                  have hnew : a ∉ order ++ more := by
                    intro hmem
                    rcases List.mem_append.1 hmem with hmem | hmem
                    · exact hvisited ((hsound.visited a).2 hmem)
                    · exact hmore.fresh a hmem (Finset.mem_insert_self a _)
                  refine Outcome.ok (more ++ [a]) ⟨?_, ⟨?_, ?_⟩, by simp, ?_, ?_⟩
                  · dsimp only
                    rw [hmore.visiting]
                    exact Finset.erase_insert hvisiting
                  · intro x
                    rw [← List.append_assoc, List.mem_append, ← hmore.sound.visited x,
                      List.mem_singleton]
                    exact Finset.mem_insert.trans or_comm
                  · rw [← List.append_assoc]
                    exact Finished.snoc hmore.sound.finished hexpand hmore.covers hnew
                  · intro x hx
                    rcases List.mem_append.1 hx with hx | hx
                    · exact fun hmem => hmore.fresh x hx (Finset.mem_insert_of_mem hmem)
                    · rw [List.mem_singleton.1 hx]
                      exact hvisiting
                  · intro x hx
                    refine ⟨a, List.mem_cons_self, ?_⟩
                    rcases List.mem_append.1 hx with hx | hx
                    · obtain ⟨t, ht, hreach⟩ := hmore.reached x hx
                      exact hreach.head (hedge t ht)
                    · rw [List.mem_singleton.1 hx]

variable (cyclic) in
theorem search_outcome (hknown : ∀ a children b, expand a = .ok (children, b) → a ∈ known)
    {fuel : ℕ} (hfuel : known.card < fuel) (roots : List α) :
    Outcome expand cyclic .empty [] roots (visitAll expand cyclic fuel .empty roots) := by
  apply visitAll_spec roots fun s order a => visit_spec hknown fuel s order a
  · exact (Finset.card_le_card Finset.sdiff_subset).trans_lt hfuel
  · exact ⟨by simp [Search.empty], Finished.nil⟩
  · intro t ht v hv
    simp [Search.empty] at hv

omit [DecidableEq α] in
theorem Extends.sane {roots more : List α} (h : Extends expand .empty [] roots s more) :
    Sane expand roots := by
  intro r hr a hreach
  have hmem := h.sound.finished.closed (h.covers r hr) hreach
  obtain ⟨children, b, hexpand, -⟩ := h.sound.finished.known hmem
  exact ⟨⟨children, b, hexpand⟩, h.sound.finished.acyclic hmem⟩

variable (cyclic) in
/-- A search from roots finishes exactly what can be reached from them. -/
theorem search_sane (hknown : ∀ a children b, expand a = .ok (children, b) → a ∈ known) {fuel : ℕ}
    (hfuel : known.card < fuel) {roots : List α} (hsane : Sane expand roots) :
    ∃ (s : Search α β) (order : List α), visitAll expand cyclic fuel .empty roots = .ok s ∧
      Finished expand order s.result ∧
      ∀ a, a ∈ order ↔ ∃ r ∈ roots, ReflTransGen (Edge expand) r a := by
  have houtcome := search_outcome cyclic hknown hfuel roots
  cases hresult : visitAll expand cyclic fuel .empty roots with
  | error e =>
      rw [hresult] at houtcome
      cases houtcome with
      | error hmem hfaulty =>
          obtain ⟨c, hreach, hc⟩ := hfaulty
          obtain ⟨⟨children, b, hexpand⟩, hacyclic⟩ := hsane _ hmem c hreach
          rcases hc with herror | ⟨-, hcycle⟩
          · rw [hexpand] at herror
            cases herror
          · exact absurd hcycle hacyclic
  | ok s =>
      rw [hresult] at houtcome
      cases houtcome with
      | ok more hmore =>
          refine ⟨s, more, rfl, hmore.sound.finished, fun a => ⟨hmore.reached a, ?_⟩⟩
          rintro ⟨r, hr, hreach⟩
          exact hmore.sound.finished.closed (hmore.covers r hr) hreach

variable (cyclic) in
/-- It fails, with an error that says why, if what can be reached is not sane. -/
theorem search_insane (hknown : ∀ a children b, expand a = .ok (children, b) → a ∈ known) {fuel : ℕ}
    (hfuel : known.card < fuel) {roots : List α} (hinsane : ¬ Sane expand roots) :
    ∃ e, visitAll expand cyclic fuel .empty roots = .error (some e) ∧
      ∃ r ∈ roots, Faulty expand cyclic r e := by
  have houtcome := search_outcome cyclic hknown hfuel roots
  cases hresult : visitAll expand cyclic fuel .empty roots with
  | error e =>
      rw [hresult] at houtcome
      cases houtcome with
      | @error t e hmem hfaulty => exact ⟨e, rfl, t, hmem, hfaulty⟩
  | ok s =>
      rw [hresult] at houtcome
      cases houtcome with
      | ok more hmore => exact absurd hmore.sane hinsane

end Visit

end DepthFirst
