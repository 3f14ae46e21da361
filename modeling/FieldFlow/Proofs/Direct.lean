import FieldFlow.Proofs.Cycle
import FieldFlow.Proofs.Numerals
import Mathlib.Data.Set.Insert
import Mathlib.Order.BooleanAlgebra.Set

/-!
# Direct execution of a model

What a model means is said here without transformers.  The operations of a field are run in order on
a set of elements, from the empty set and from the last operation that wipes the field.  An
operation that refers to another object chooses one of the final paths of that object and folds the
members found there into the set; if the path does not track the field that is referred to, the
field is not tracked either.  An object that is missing or lies on a reference cycle stands for an
unknown value.

Main definitions: `Direct.Effects`, `Direct.Runs`, `Direct.Final`.
Main results: `Direct.fold?_eq_effect?`, `Direct.Final.nil_notMem`.
-/

namespace FieldFlow

/-- What a final path knows: the members of every field that it tracks. -/
abbrev Reading := String → Option (Set Element)

/-- What may happen to a field: its members change, or it is no longer tracked. -/
abbrev Effect := Option (Set Element → Set Element)

namespace Effect

/-- The content of a field after an effect; a field that is not tracked stays untracked. -/
def on (effect : Effect) (content : Option (Set Element)) : Option (Set Element) :=
  effect.bind fun act => content.map act

/-- One effect after another. -/
def andThen (first second : Effect) : Effect :=
  second.bind fun act => first.map fun before => act ∘ before

end Effect

namespace Model

/-- The object of a name; of several the last counts. -/
def object? (m : Model) (id : ObjectId) : Option Object :=
  m.objects.reverse.find? fun o => o.id = id

/-- The last declaration of a field in a path. -/
def Path.declaration? (path : Path) (name : String) : Option Field :=
  path.fields.reverse.find? fun f => f.name = name

/-- The field of the referenced object, if the reference stands in the field `holder`. -/
def Target.fieldIn (target : Target) (holder : String) : String :=
  if target.field = "" then holder else target.field

/-- A literal operation that forgets what came before it. -/
def Op.wipes (op : Op) : Bool := op.ref.isNone && (op.action = "clear" || op.action = "replace")

/-- The operations from the last one that wipes the field, or all if none does. -/
def effective : List Op → List Op
  | [] => []
  | op :: rest => if rest.any Op.wipes then effective rest else op :: rest

end Model

namespace Direct

/-! ## Effects -/

/-- What an action does to a set, with the elements `xs` as its operand; nothing for an unknown
action. -/
def effect? (action : String) (xs : Set Element) : Option (Set Element → Set Element) :=
  match action with
  | "add" => some fun s => s ∪ xs
  | "remove" => some fun s => s \ xs
  | "clear" => some fun _ => ∅
  | "replace" => some fun _ => xs
  | _ => none

/-- What an action does with one element after the other. -/
def fold? (action : String) : List Element → Option (Set Element → Set Element)
  | [] => some id
  | x :: rest => do
    let act ← effect? action {x}
    let others ← fold? action rest
    return others ∘ act

/-- The element that stands for an unknown value of a field type; an unknown type counts as
texts. -/
def top (type : String) : Element := ((Analyses.defaults.find? type).getD .string).top

/-- Folding in the content of a field: its members one after the other, in the order of their keys.
What is not tracked there is not tracked here. -/
inductive Folds (action : String) : Option (Set Element) → Effect → Prop
  | untracked : Folds action none none
  | members {xs : List Element} {act : Set Element → Set Element}
      (hordered : xs.Pairwise fun x y => x.key < y.key) (hfold : fold? action xs = some act) :
      Folds action (some {x | x ∈ xs}) (some act)

/-! ## The interpreter -/

mutual

/-- The effects that an operation on the field `f` may have. -/
inductive Effects (m : Model) : Model.Field → Model.Op → Effect → Prop
  | literal {f : Model.Field} {op : Model.Op} {xs : List Element} {act : Set Element → Set Element}
      (href : op.ref = none) (hread : Analyses.defaults.read f.valueType op.values = .ok xs)
      (hact : effect? op.action {x | x ∈ xs} = some act) :
      Effects m f op (some act)
  | unknown {f : Model.Field} {op : Model.Op} {target : Model.Target}
      (haction : op.action = "compose")
      (href : op.ref = some target) (hunknown : ¬ m.Has target.id ∨ m.OnCycle target.id) :
      Effects m f op (some fun s => s ∪ {top f.valueType})
  | chosen {f : Model.Field} {op : Model.Op} {target : Model.Target} {b : Reading}
      {effect : Effect} (haction : op.action = "compose")
      (href : op.ref = some target) (hcycle : ¬ m.OnCycle target.id) (hfinal : Final m target.id b)
      (hfolds : Folds target.effectiveOp (b (target.fieldIn f.name)) effect) :
      Effects m f op effect

/-- Running operations on the field `f`, each with one of its effects. -/
inductive Runs (m : Model) :
    Model.Field → List Model.Op → Option (Set Element) → Option (Set Element) → Prop
  | done {f : Model.Field} {s : Option (Set Element)} : Runs m f [] s s
  | step {f : Model.Field} {op : Model.Op} {rest : List Model.Op}
      {effect : Effect} {s s' : Option (Set Element)}
      (heffect : Effects m f op effect) (hrest : Runs m f rest (effect.on s) s') :
      Runs m f (op :: rest) s s'

/-- The final paths of an object: in each of its paths the last declaration of every field is
run. -/
inductive Final (m : Model) : ObjectId → Reading → Prop
  | path {id : ObjectId} {o : Model.Object} {path : Model.Path} {b : Reading}
      (ho : m.object? id = some o) (hpath : path ∈ o.paths)
      (hfields : ∀ name f, path.declaration? name = some f →
        Runs m f (Model.effective f.ops) (some ∅) (b name))
      (hothers : ∀ name, path.declaration? name = none → b name = none) :
      Final m id b

end

/-- A map that the last declarations in a path run to; it tracks nothing else. -/
structure Traces (m : Model) (path : Model.Path) (b : Reading) : Prop where
  fields : ∀ name f, path.declaration? name = some f →
    Runs m f (Model.effective f.ops) (some ∅) (b name)
  others : ∀ name, path.declaration? name = none → b name = none

/-- The final paths of an object are what its paths run to. -/
theorem final_iff {m : Model} {id : ObjectId} {b : Reading} :
    Final m id b ↔ ∃ o, m.object? id = some o ∧ ∃ path ∈ o.paths, Traces m path b := by
  constructor
  · rintro ⟨ho, hpath, hfields, hothers⟩
    exact ⟨_, ho, _, hpath, hfields, hothers⟩
  · rintro ⟨o, ho, path, hpath, htraces⟩
    exact .path ho hpath htraces.fields htraces.others

/-- A path with one field runs to what the operations of the field run to. -/
theorem traces_singleton {m : Model} {f : Model.Field} {content : Option (Set Element)}
    (h : Runs m f (Model.effective f.ops) (some ∅) content) :
    Traces m ⟨[f]⟩ (Function.update (fun _ => none) f.name content) := by
  have hdeclared : ∀ name, (⟨[f]⟩ : Model.Path).declaration? name = if f.name = name then some f
      else none := by
    intro name
    by_cases hname : f.name = name <;> simp [Model.Path.declaration?, hname]
  constructor
  · intro name f' hf'
    rw [hdeclared] at hf'
    split at hf'
    · rename_i hname
      cases hf'
      rwa [← hname, Function.update_self]
    · cases hf'
  · intro name hnone
    rw [hdeclared] at hnone
    split at hnone
    · cases hnone
    · rename_i hname
      rw [Function.update_of_ne (Ne.symm hname)]

/-- Only objects have final paths. -/
theorem Final.has {m : Model} {id : ObjectId} {b : Reading} (h : Final m id b) : m.Has id := by
  obtain ⟨o, ho, _⟩ := final_iff.mp h
  exact ⟨o, List.mem_reverse.mp (List.mem_of_find?_eq_some ho), by simpa using List.find?_some ho⟩

/-! ## Folding -/

/-- Folding in elements one by one does what the action does with all of them, unless it
replaces. -/
theorem fold?_eq_effect? {action : String} (haction : action ≠ "replace") {xs : List Element}
    (hxs : xs ≠ []) : fold? action xs = effect? action {x | x ∈ xs} := by
  induction xs with
  | nil => exact absurd rfl hxs
  | cons x rest ih =>
    cases rest with
    | nil =>
      have hsingle : {y | y ∈ [x]} = ({x} : Set Element) := by
        ext y
        simp
      rw [hsingle, fold?]
      cases effect? action {x} <;> rfl
    | cons y rest =>
      have hcons : {z | z ∈ x :: y :: rest} = ({x} : Set Element) ∪ {z | z ∈ y :: rest} := by
        ext z
        simp
      rw [hcons, fold?, ih (by simp)]
      by_cases hadd : action = "add"
      · subst hadd
        exact congrArg some (funext fun s => Set.union_assoc s _ _)
      by_cases hremove : action = "remove"
      · subst hremove
        exact congrArg some (funext fun s => Set.sdiff_sdiff)
      by_cases hclear : action = "clear"
      · subst hclear
        rfl
      · have hnone : ∀ zs, effect? action zs = none := by
          intro zs
          unfold effect?
          split <;> simp_all
        rw [hnone, hnone, hnone]
        rfl

/-! ## Nothing holds nil -/

/-- The content of a field does not hold nil. -/
def NilFree (s : Option (Set Element)) : Prop := ∀ members, s = some members → .nil ∉ members

/-- The effect adds no nil. -/
def KeepsNilFree (effect : Effect) : Prop :=
  ∀ act, effect = some act → ∀ s, .nil ∉ s → .nil ∉ act s

theorem eq_string_or_int_of_find? {type : String} {analysis : Analysis}
    (h : Analyses.defaults.find? type = some analysis) :
    analysis = .string ∨ analysis = .int := by
  have hmem := mem_of_lookup h
  simp only [Analyses.defaults, List.mem_cons, List.not_mem_nil, Prod.mk.injEq, or_false] at hmem
  exact hmem.imp And.right And.right

theorem ne_nil_of_read {type : String} {texts : List String} {xs : List Element}
    (h : Analyses.defaults.read type texts = .ok xs) : .nil ∉ xs := by
  unfold Analyses.read at h
  cases hfind : Analyses.defaults.find? type with
  | none => simp [hfind] at h
  | some analysis =>
    simp only [hfind] at h
    rcases eq_string_or_int_of_find? hfind with rfl | rfl
    · cases h
      simp
    · obtain ⟨numbers, _, rfl⟩ := Analysis.readIntegers_eq_ok.mp h
      simp

/-- The known actions add no nil unless it is their operand. -/
theorem keepsNilFree_effect? {action : String} {xs : Set Element} (hxs : .nil ∉ xs) :
    KeepsNilFree (effect? action xs) := by
  intro act hact s hs
  unfold effect? at hact
  split at hact <;> simp only [Option.some.injEq, reduceCtorEq] at hact <;> subst hact
  · exact fun h => h.elim hs hxs
  · exact fun h => hs h.1
  · exact id
  · exact hxs

/-- Folding adds no nil unless it is among the elements. -/
theorem keepsNilFree_fold? {action : String} {xs : List Element} (hxs : .nil ∉ xs) :
    KeepsNilFree (fold? action xs) := by
  induction xs with
  | nil =>
    intro act hact s hs
    cases hact
    exact hs
  | cons x rest ih =>
    intro act hact s hs
    rw [List.mem_cons, not_or] at hxs
    obtain ⟨first, hfirst, hbind⟩ := Option.bind_eq_some_iff.mp hact
    obtain ⟨others, hothers, hpure⟩ := Option.bind_eq_some_iff.mp hbind
    cases hpure
    exact ih hxs.2 others hothers _ (keepsNilFree_effect? (by simpa using hxs.1) first hfirst s hs)

/-- The element for an unknown value is not nil. -/
theorem top_ne_nil (type : String) : top type ≠ .nil := by
  unfold top
  cases hfind : Analyses.defaults.find? type with
  | none => simp [Analysis.string]
  | some analysis =>
    rcases eq_string_or_int_of_find? hfind with rfl | rfl <;> simp [Analysis.string, Analysis.int]

/-- **No final path holds nil.** -/
theorem Final.nil_notMem {m : Model} {id : ObjectId} {b : Reading} (h : Final m id b) :
    ∀ name, NilFree (b name) := by
  -- the three relations are proved together: effects keep, runs keep, and paths start empty
  refine @Final.rec m (fun _ _ effect _ => KeepsNilFree effect)
    (fun _ _ s s' _ => NilFree s → NilFree s') (fun _ b _ => ∀ name, NilFree (b name))
    ?_ ?_ ?_ ?_ ?_ ?_ id b h
  · intro f op xs act href hread hact
    rw [← hact]
    exact keepsNilFree_effect? (ne_nil_of_read hread)
  · intro f op target haction href hunknown act hact s hs
    cases hact
    exact fun hmem => hmem.elim hs fun heq => top_ne_nil _ heq.symm
  · intro f op target b effect haction href hcycle hfinal hfolds hb
    generalize hcontent : b (target.fieldIn f.name) = content at hfolds
    cases hfolds with
    | untracked =>
      intro act hact
      cases hact
    | members hordered hfold =>
      rw [← hfold]
      exact keepsNilFree_fold? (hb _ _ hcontent)
  · intro f s hs
    exact hs
  · intro f op rest effect s s' heffect hrest hkeeps hkeepsRest hs
    apply hkeepsRest
    intro members hafter
    obtain ⟨act, hact, hmap⟩ := Option.bind_eq_some_iff.mp hafter
    obtain ⟨before, hbefore, rfl⟩ := Option.map_eq_some_iff.mp hmap
    exact hkeeps act hact before (hs before hbefore)
  · intro id o path b ho hpath hfields hothers hkeeps name
    cases hdeclaration : path.declaration? name with
    | none =>
      intro members hmembers
      rw [hothers name hdeclaration] at hmembers
      cases hmembers
    | some f =>
      refine hkeeps name f hdeclaration ?_
      intro members hmembers
      cases hmembers
      simp

end Direct

end FieldFlow
