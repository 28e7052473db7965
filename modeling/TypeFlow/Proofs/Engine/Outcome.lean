import Mathlib
import TypeFlow.Proofs.Engine.Discipline

/-!
# Outcomes of computations

What is shown of a computation, given a discipline and a state that keeps to it: whether it succeeds
or stops, it has moved by guarded updates, the running calls are as before, and it stops only where
it may.  The same is shown of a second computation from a similar state, in step with the first.

## Main Definitions

* `Discipline.Leads` - guarded updates that keep the running calls
* `Discipline.Outcome` - the outcomes of two computations from similar states
* `Discipline.Agree` - two computations whose outcomes are such

## Main Statements

* `Discipline.Agree.pure`, `Discipline.Agree.bind`, `Discipline.Agree.ensuring` - the rules
* `Discipline.Agree.modify`, `Discipline.Agree.ask` - single updates and reads

## Design Notes

A property of one computation is a property of the computation and itself.  Two computations are
needed where the calls inside are answered in two ways.
-/

namespace TypeFlow

namespace Discipline

variable (D : Discipline)

/-- Guarded updates that keep the running calls and the assumed results. -/
structure Leads (but : Option ClosureId) (s t : Run) : Prop where
  steps : D.Steps s t
  keeps : s.Keeps but t

/-- The faults that may stop a computation. -/
def Fails : Fault → Prop
  | .malformed _ => True
  | .dangling _ => ¬ D.tight

/-- The outcomes of two computations that started from a state and a similar one: the same result,
or the same fault, in similar states. -/
inductive Outcome {α : Type} (but : Option ClosureId) (s : Run) (Q : α → Run → Prop) :
    EStateM.Result Fault Run α → EStateM.Result Fault Run α → Prop where
  | ok {a : α} {t t' : Run} : D.Sim t t' → D.Inv t → D.Leads but s t → Q a t →
    Outcome but s Q (.ok a t) (.ok a t')
  | error {e : Fault} {t t' : Run} : D.Sim t t' → D.Inv t → D.Leads but s t → D.Fails e →
    Outcome but s Q (.error e t) (.error e t')

/-- Two computations that have the same outcome from a state and from every similar one. -/
def Agree {α : Type} (but : Option ClosureId) (s : Run) (m m' : Walk α) (Q : α → Run → Prop) :
    Prop :=
  ∀ s', D.Sim s s' → D.Outcome but s Q (m s) (m' s')

variable {D} {α β : Type} {but : Option ClosureId} {s t r : Run}

/-! ### Sequences of updates -/

theorem Leads.refl (s : Run) : D.Leads but s s :=
  ⟨Relation.ReflTransGen.refl, Run.Keeps.refl s⟩

theorem Leads.trans (h : D.Leads but s t) (h' : D.Leads but t r) : D.Leads but s r :=
  ⟨h.steps.trans h'.steps, h.keeps.trans h'.keeps⟩

/-- Where all assumed results are kept, those of all closures but one are. -/
theorem Leads.weaken (h : D.Leads none s t) : D.Leads but s t :=
  ⟨h.steps, h.keeps.weaken⟩

/-- A type that may be stored stays so. -/
theorem Leads.good (h : D.Leads but s t) {a : Ty} (hgood : D.Good s a) : D.Good t a :=
  D.mono h.steps.extends hgood

theorem Leads.goods (h : D.Leads but s t) {as : List Ty} (hgood : ∀ a ∈ as, D.Good s a) :
    ∀ a ∈ as, D.Good t a :=
  fun a hmem => h.good (hgood a hmem)

/-- A handle that may be used stays so. -/
theorem Leads.live (h : D.Leads but s t) {d : Dangling} (hlive : D.Live s d) : D.Live t d :=
  hlive.mono h.steps.extends

/-- A node that may be walked in a scope stays so. -/
theorem Leads.stands (h : D.Leads but s t) {id : ScopeId} {n : Node} (hstands : D.Stands s id n) :
    D.Stands t id n :=
  hstands.mono h.steps.extends

/-- A name that may be bound in a scope stays so. -/
theorem Leads.mayBind (h : D.Leads but s t) {id : ScopeId} {name : String}
    (hmay : D.MayBind s id name) : D.MayBind t id name := by
  intro hplaced
  rcases hmay hplaced with htop | hbound | ⟨k, f, hframe, hnamed⟩
  · exact .inl htop
  · exact .inr (.inl (h.steps.binds hbound))
  · exact .inr (.inr ⟨k, f, hframe.mono h.steps.extends, hnamed⟩)

/-- As many calls may be nested as before. -/
theorem Leads.depthLeft (h : D.Leads but s t) : t.depthLeft = s.depthLeft :=
  h.keeps.depthLeft

/-- One guarded update that is local. -/
theorem Leads.of_local {u : Update} (hguard : D.Guard s u) (hisLocal : u.isLocal = true) :
    D.Leads but s (u.apply s) :=
  ⟨.single ⟨u, hguard, rfl⟩, (Update.keeps_of_isLocal hisLocal s).weaken⟩

/-! ### Similar states -/

/-- Similar states have the same environment. -/
theorem sim_env {s' : Run} (hsim : D.Sim s s') : s'.env = s.env :=
  (congrArg Run.env (D.sim_view hsim) :)

theorem sim_closures {s' : Run} (hsim : D.Sim s s') : s'.closures = s.closures :=
  (congrArg Run.closures (D.sim_view hsim) :)

theorem sim_heap {s' : Run} (hsim : D.Sim s s') : s'.heap = s.heap :=
  (congrArg Run.heap (D.sim_view hsim) :)

theorem sim_protos {s' : Run} (hsim : D.Sim s s') : s'.protos = s.protos :=
  (congrArg Run.protos (D.sim_view hsim) :)

theorem sim_activations {s' : Run} (hsim : D.Sim s s') : s'.activations = s.activations :=
  (congrArg Run.activations (D.sim_view hsim) :)

theorem sim_solving {s' : Run} (hsim : D.Sim s s') : s'.solving = s.solving :=
  (congrArg Run.solving (D.sim_view hsim) :)

theorem sim_maxRounds {s' : Run} (hsim : D.Sim s s') :
    s'.options.maxRounds = s.options.maxRounds :=
  (congrArg (fun r => r.options.maxRounds) (D.sim_view hsim) :)

theorem sim_maxCallDepth {s' : Run} (hsim : D.Sim s s') :
    s'.options.maxCallDepth = s.options.maxCallDepth :=
  (congrArg (fun r => r.options.maxCallDepth) (D.sim_view hsim) :)

/-! ### Rules -/

section Rules

variable {x x' : EStateM.Result Fault Run α} {m m' : Walk α} {f f' : α → Walk β}
variable {Q Q' : α → Run → Prop} {R : β → Run → Prop}

/-- What is said of the result may be weakened, given that the state keeps to the discipline. -/
theorem Outcome.mono (h : D.Outcome but s Q x x')
    (hweaker : ∀ a t, D.Inv t → D.Leads but s t → Q a t → Q' a t) :
    D.Outcome but s Q' x x' := by
  cases h with
  | ok hsim hinv hleads hholds => exact .ok hsim hinv hleads (hweaker _ _ hinv hleads hholds)
  | error hsim hinv hleads hfails => exact .error hsim hinv hleads hfails

theorem Outcome.weaken (h : D.Outcome none s Q x x') : D.Outcome but s Q x x' := by
  cases h with
  | ok hsim hinv hleads hholds => exact .ok hsim hinv hleads.weaken hholds
  | error hsim hinv hleads hfails => exact .error hsim hinv hleads.weaken hfails

/-- An outcome counts from every state that leads to the one it counts from. -/
theorem Outcome.trans (hlead : D.Leads but r s) (h : D.Outcome but s Q x x') :
    D.Outcome but r Q x x' := by
  cases h with
  | ok hsim hinv hleads hholds => exact .ok hsim hinv (hlead.trans hleads) hholds
  | error hsim hinv hleads hfails => exact .error hsim hinv (hlead.trans hleads) hfails

/-- The outcome of a sequence: the second part starts where the first one ended, in both
computations. -/
theorem Outcome.bind {s' : Run} (h : D.Outcome but r Q (m s) (m' s'))
    (hnext : ∀ a t, D.Inv t → D.Leads but r t → Q a t → D.Agree but t (f a) (f' a) R) :
    D.Outcome but r R ((m >>= f) s) ((m' >>= f') s') := by
  change D.Outcome but r R (EStateM.bind m f s) (EStateM.bind m' f' s')
  unfold EStateM.bind
  generalize m s = x at h
  generalize m' s' = x' at h
  cases h with
  | ok hsim hinv hleads hholds => exact (hnext _ _ hinv hleads hholds _ hsim).trans hleads
  | error hsim hinv hleads hfails => exact .error hsim hinv hleads hfails

/-- The state that a computation leaves behind, whether it succeeds or stops. -/
theorem Outcome.after {s' : Run} (h : D.Outcome but r Q (m s) (m' s')) :
    D.Inv (after m s) ∧ D.Leads but r (after m s) := by
  unfold TypeFlow.after
  generalize m s = x at h
  generalize m' s' = x' at h
  cases h with
  | ok _ hinv hleads => exact ⟨hinv, hleads⟩
  | error _ hinv hleads => exact ⟨hinv, hleads⟩

/-- A fault that stops a computation is one of those that may. -/
theorem Outcome.fails {s' : Run} {e : Fault} (h : D.Outcome but r Q (m s) (m' s'))
    (hstopped : m s = .error e t) : D.Fails e := by
  rw [hstopped] at h
  generalize m' s' = x' at h
  cases h with
  | error _ _ _ hfails => exact hfails

/-- Two computations in step have the same outcome, when only equal states are similar. -/
theorem Agree.eq (hequal : D.toSimilarity = .equal) (h : D.Agree but s m m' Q) : m s = m' s := by
  have heq_of_sim {t t' : Run} (hsim : D.Sim t t') : t = t' := by
    rw [hequal] at hsim
    exact hsim
  have hself : D.Sim s s := by
    rw [hequal]
    exact Eq.refl s
  have houtcome := h s hself
  generalize m s = x at houtcome ⊢
  generalize m' s = x' at houtcome ⊢
  cases houtcome with
  | ok hsim => exact congrArg _ (heq_of_sim hsim)
  | error hsim => exact congrArg _ (heq_of_sim hsim)

theorem Agree.mono (h : D.Agree but s m m' Q)
    (hweaker : ∀ a t, D.Inv t → D.Leads but s t → Q a t → Q' a t) : D.Agree but s m m' Q' :=
  fun s' hsim => (h s' hsim).mono hweaker

/-- Two computations that agree, with one more fact about the result. -/
theorem Agree.also (h : D.Agree but s m m' Q) (hfact : ∀ a t, m s = .ok a t → Q' a t) :
    D.Agree but s m m' fun a t => Q a t ∧ Q' a t := by
  intro s' hsim
  have houtcome := h s' hsim
  generalize m s = x at houtcome hfact
  generalize m' s' = x' at houtcome
  cases houtcome with
  | ok hsim hinv hlead hholds => exact .ok hsim hinv hlead ⟨hholds, hfact _ _ rfl⟩
  | error hsim hinv hlead hfails => exact .error hsim hinv hlead hfails

theorem Agree.weaken (h : D.Agree none s m m' Q) : D.Agree but s m m' Q :=
  fun s' hsim => (h s' hsim).weaken

/-- A value, in a state that is left alone. -/
theorem Agree.pure {a : α} (hinv : D.Inv s) (hholds : Q a s) :
    D.Agree but s (pure a) (pure a) Q :=
  fun _ hsim => .ok hsim hinv (Leads.refl s) hholds

/-- Computations one after the other: what is shown of the first result may be used for the
second. -/
theorem Agree.bind (hfirst : D.Agree but s m m' Q)
    (hnext : ∀ a t, D.Inv t → D.Leads but s t → Q a t → D.Agree but t (f a) (f' a) R) :
    D.Agree but s (m >>= f) (m' >>= f') R :=
  fun s' hsim => (hfirst s' hsim).bind hnext

/-- A test on values comes out alike in both computations. -/
theorem Agree.ite {c : Prop} [Decidable c] {n n' : Walk α} (hagree : c → D.Agree but s m m' Q)
    (hagree' : ¬ c → D.Agree but s n n' Q) :
    D.Agree but s (if c then m else n) (if c then m' else n') Q := by
  split
  · exact hagree ‹_›
  · exact hagree' ‹_›

/-- A computation under a condition on values. -/
theorem Agree.when {c : Prop} [Decidable c] {n n' : Walk Unit} {P : Unit → Run → Prop}
    (hinv : D.Inv s) (hagree : c → D.Agree but s n n' P) (hno : ¬ c → P () s) :
    D.Agree but s (Walk.when c n) (Walk.when c n') P :=
  Agree.ite hagree fun hnot => Agree.pure hinv (hno hnot)

/-- A malformation may stop every computation. -/
theorem Agree.malformed (hinv : D.Inv s) (kind : Malformation) (node : NodeId) (span : Span) :
    D.Agree but s (Walk.malformed kind node span) (Walk.malformed kind node span) Q :=
  fun _ hsim => .error hsim hinv (Leads.refl s) trivial

/-- Reading the state: what is done next may depend on what a run looks at. -/
theorem Agree.get {g g' : Run → Walk α} (hsame : ∀ s', D.Sim s s' → g' s' = g' s)
    (hnext : D.Agree but s (g s) (g' s) Q) :
    D.Agree but s (get >>= g) (get >>= g') Q := by
  intro s' hsim
  change D.Outcome but s Q (g s s) (g' s' s')
  rw [hsame s' hsim]
  exact hnext s' hsim

/-- Following handles. -/
theorem Agree.ask {look : Run → Except Dangling α} (hinv : D.Inv s)
    (hsame : ∀ s', D.Sim s s' → look s' = look s) (hholds : ∀ a, look s = .ok a → Q a s)
    (hfails : ∀ d, look s = .error d → ¬ D.tight) :
    D.Agree but s (Walk.ask look) (Walk.ask look) Q := by
  intro s' hsim
  unfold Walk.ask
  rw [hsame s' hsim]
  cases hfound : look s with
  | ok a => exact .ok hsim hinv (Leads.refl s) (hholds a hfound)
  | error d => exact .error hsim hinv (Leads.refl s) (hfails d hfound)

/-- A single update. -/
theorem Agree.modify {change : Run → Run} {u : Update} {P : Unit → Run → Prop}
    (happlies : ∀ s', s'.activations = s.activations → change s' = u.apply s') (hinv : D.Inv s)
    (hguard : D.Guard s u) (hisLocal : u.isLocal = true) (hholds : P () (u.apply s)) :
    D.Agree but s (modify change) (modify change) P := by
  intro s' hsim
  change D.Outcome but s P (.ok () (change s)) (.ok () (change s'))
  rw [happlies s rfl, happlies s' (sim_activations hsim)]
  exact .ok (D.sim_apply u hsim) (hinv.apply hguard) (Leads.of_local hguard hisLocal) hholds

/-- A change that is made whatever the outcome. -/
theorem Agree.ensuring {change : Run → Run} {u : Update} {but' : Option ClosureId}
    (happlies : ∀ s', change s' = u.apply s') (h : D.Agree but s m m' Q)
    (hguard : ∀ t, D.Inv t → D.Leads but s t → D.Guard t u ∧ D.Leads but' r (u.apply t))
    (hholds : ∀ a t, D.Inv t → D.Leads but s t → Q a t → Q' a (u.apply t)) :
    ∀ s', D.Sim s s' →
      D.Outcome but' r Q' (Walk.ensuring m change s) (Walk.ensuring m' change s') := by
  intro s' hsim
  have houtcome := h s' hsim
  unfold Walk.ensuring
  generalize m s = x at houtcome
  generalize m' s' = x' at houtcome
  cases houtcome with
  | ok hsim hinv hleads hholds' =>
    obtain ⟨hguarded, hleads'⟩ := hguard _ hinv hleads
    simp only [happlies]
    exact .ok (D.sim_apply u hsim) (hinv.apply hguarded) hleads' (hholds _ _ hinv hleads hholds')
  | error hsim hinv hleads hfails =>
    obtain ⟨hguarded, hleads'⟩ := hguard _ hinv hleads
    simp only [happlies]
    exact .error (D.sim_apply u hsim) (hinv.apply hguarded) hleads' hfails

end Rules

/-! ### Writes to the tables -/

section Tables

variable {Q : α → Run → Prop} {P : Unit → Run → Prop}

/-- A write to a part of the state, which may fail when handles need have no entries. -/
theorem Agree.onPart {σ : Type} {m : EStateM Dangling σ α} {walk : Walk α} {u : Update}
    (part : Run → σ) (put : σ → Run → Run)
    (hsucceeds : ∀ s a x, m (part s) = .ok a x → walk s = .ok a (put x s))
    (hstops : ∀ s d x, m (part s) = .error d x → walk s = .error (.dangling d) (put x s))
    (hsame : ∀ s', D.Sim s s' → part s' = part s)
    (happlies : ∀ s', put (after m (part s')) s' = u.apply s')
    (hinv : D.Inv s) (hguard : D.Guard s u) (hisLocal : u.isLocal = true)
    (hholds : ∀ a x, m (part s) = .ok a x → Q a (u.apply s))
    (hfails : ∀ d x, m (part s) = .error d x → ¬ D.tight) :
    D.Agree but s walk walk Q := by
  intro s' hsim
  have heq := happlies s
  have heq' := happlies s'
  unfold after at heq heq'
  rw [hsame s' hsim] at heq'
  cases hran : m (part s) with
  | ok a x =>
    rw [hsucceeds s a x hran, hsucceeds s' a x (hsame s' hsim ▸ hran)]
    simp only [hran] at heq heq'
    rw [heq, heq']
    exact .ok (D.sim_apply u hsim) (hinv.apply hguard) (Leads.of_local hguard hisLocal)
      (hholds a x hran)
  | error d x =>
    rw [hstops s d x hran, hstops s' d x (hsame s' hsim ▸ hran)]
    simp only [hran] at heq heq'
    rw [heq, heq']
    exact .error (D.sim_apply u hsim) (hinv.apply hguard) (Leads.of_local hguard hisLocal)
      (hfails d x hran)

/-- An operation on the environment that does a guarded write when it succeeds, and that fails only
at a handle without entry. -/
theorem Agree.onEnv {m : EStateM Dangling Env α} (w : Env.Write) (happlies : after m = w.apply)
    (hinv : D.Inv s) (hguard : D.Guard s (.env w))
    (hholds : ∀ a e, m s.env = .ok a e → Q a ((Update.env w).apply s))
    (hfails : ∀ d e, m s.env = .error d e → ¬ D.tight) :
    D.Agree but s (Walk.onEnv m) (Walk.onEnv m) Q :=
  Agree.onPart Run.env (fun x s => { s with env := x })
    (fun _ _ _ hran => by simp only [Walk.onEnv, hran])
    (fun _ _ _ hran => by simp only [Walk.onEnv, hran])
    (fun _ => sim_env) (fun s' => by rw [happlies]; rfl) hinv hguard rfl hholds hfails

/-- The same for the table of closures. -/
theorem Agree.onClosures {m : EStateM Dangling Closures α} (w : Closures.Write)
    (happlies : after m = w.apply) (hinv : D.Inv s) (hguard : D.Guard s (.closures w))
    (hholds : ∀ a cs, m s.closures = .ok a cs → Q a ((Update.closures w).apply s))
    (hfails : ∀ d cs, m s.closures = .error d cs → ¬ D.tight) :
    D.Agree but s (Walk.onClosures m) (Walk.onClosures m) Q :=
  Agree.onPart Run.closures (fun x s => { s with closures := x })
    (fun _ _ _ hran => by simp only [Walk.onClosures, hran])
    (fun _ _ _ hran => by simp only [Walk.onClosures, hran])
    (fun _ => sim_closures) (fun s' => by rw [happlies]; rfl) hinv hguard rfl hholds hfails

/-- The same for the heap. -/
theorem Agree.onHeap {m : EStateM Dangling Heap α} (w : Heap.Write) (happlies : after m = w.apply)
    (hinv : D.Inv s) (hguard : D.Guard s (.heap w))
    (hholds : ∀ a h, m s.heap = .ok a h → Q a ((Update.heap w).apply s))
    (hfails : ∀ d h, m s.heap = .error d h → ¬ D.tight) :
    D.Agree but s (Walk.onHeap m) (Walk.onHeap m) Q :=
  Agree.onPart Run.heap (fun x s => { s with heap := x })
    (fun _ _ _ hran => by simp only [Walk.onHeap, hran])
    (fun _ _ _ hran => by simp only [Walk.onHeap, hran])
    (fun _ => sim_heap) (fun s' => by rw [happlies]; rfl) hinv hguard rfl hholds hfails

/-- The same for the prototype graph. -/
theorem Agree.onProtos {m : EStateM Dangling Protos α} (w : Protos.Write)
    (happlies : after m = w.apply) (hinv : D.Inv s) (hguard : D.Guard s (.protos w))
    (hholds : ∀ a g, m s.protos = .ok a g → Q a ((Update.protos w).apply s))
    (hfails : ∀ d g, m s.protos = .error d g → ¬ D.tight) :
    D.Agree but s (Walk.onProtos m) (Walk.onProtos m) Q :=
  Agree.onPart Run.protos (fun x s => { s with protos := x })
    (fun _ _ _ hran => by simp only [Walk.onProtos, hran])
    (fun _ _ _ hran => by simp only [Walk.onProtos, hran])
    (fun _ => sim_protos) (fun s' => by rw [happlies]; rfl) hinv hguard rfl hholds hfails

end Tables

end Discipline

end TypeFlow
