/-
What two runs hand about: forms, declarations, bindings and substitutions, with what is read off them.
-/
import AnnotatedLua.Proofs.Pair.Same
import AnnotatedLua.Query

namespace AnnotatedLua

open Bindings Substitution

variable {name name' : Symbol} {q : Pairing} {p : Pairing}

/-! ## Types without handles -/

instance : Value Mode := .discrete _
instance : Value Settings := .discrete _
instance : Value Problem := .discrete _
instance : Value Verdict := .discrete _

instance : Discrete Mode := ⟨Iff.rfl⟩
instance : Discrete Settings := ⟨Iff.rfl⟩
instance : Discrete Problem := ⟨Iff.rfl⟩
instance : Discrete Verdict := ⟨Iff.rfl⟩

section
variable {m m' n n' : Marks} [h : Same p m m']

instance [k : Same p n n'] : Same p (m.merge n) (m'.merge n') := ⟨congrArg₂ _ h.eq k.eq⟩
instance : Same p m.isVariable m'.isVariable := ⟨congrArg _ h.eq⟩
instance : Same p m.structural m'.structural := ⟨congrArg _ h.eq⟩
instance : Same p m.unresolved m'.unresolved := ⟨congrArg _ h.eq⟩
instance : Same p m.literalTable m'.literalTable := ⟨congrArg _ h.eq⟩
end

/-! ## Builtin types -/

instance : Same p Ty.any Ty.any := ⟨p.builtin _ rfl⟩
instance : Same p Ty.nil Ty.nil := ⟨p.builtin _ rfl⟩
instance : Same p Ty.void Ty.void := ⟨p.builtin _ rfl⟩
instance : Same p Ty.boolean Ty.boolean := ⟨p.builtin _ rfl⟩
instance : Same p Ty.string Ty.string := ⟨p.builtin _ rfl⟩
instance : Same p Ty.number Ty.number := ⟨p.builtin _ rfl⟩
instance : Same p Ty.table Ty.table := ⟨p.builtin _ rfl⟩
instance : Same p Ty.function Ty.function := ⟨p.builtin _ rfl⟩
instance : Same p Ty.trueLiteral Ty.trueLiteral := ⟨p.builtin _ rfl⟩
instance : Same p Ty.falseLiteral Ty.falseLiteral := ⟨p.builtin _ rfl⟩

instance {kind : Primitive} : Same p kind.type kind.type := by
  cases kind <;> exact ⟨p.builtin _ rfl⟩

section
variable {ty ty' : Ty} [Same p ty ty']

instance : Same p ty.isAny ty'.isAny := inferInstanceAs (Same p (ty == Ty.any) (ty' == Ty.any))
instance : Same p ty.isNil ty'.isNil := inferInstanceAs (Same p (ty == Ty.nil) (ty' == Ty.nil))
instance : Same p ty.isVoid ty'.isVoid := inferInstanceAs (Same p (ty == Ty.void) (ty' == Ty.void))
end

/-! ## Signatures -/

instance : Value Parameter :=
  .via (fun x => (x.name, x.type, x.optional)) (by rintro ⟨_, _, _⟩ ⟨_, _, _⟩ h; simp_all)

instance : Faithful Parameter := .of_parts (fun x => (x.name, x.type, x.optional)) Iff.rfl

instance : Value Signature :=
  .via (fun s => (s.colon, s.typeParams, s.params, s.variadic, s.returns))
    (by rintro ⟨_, _, _, _, _⟩ ⟨_, _, _, _, _⟩ h; simp_all)

instance : Faithful Signature :=
  .of_parts (fun s => (s.colon, s.typeParams, s.params, s.variadic, s.returns)) Iff.rfl

section
variable {x x' : Parameter} [h : Same p x x']

instance : Same p x.name x'.name := h.out.1
instance : Same p x.type x'.type := h.out.2.out.1
instance : Same p x.optional x'.optional := h.out.2.out.2
instance : Same p x.typeOrAny x'.typeOrAny := inferInstanceAs (Same p (x.type.getD _) (x'.type.getD _))
end

instance {n n' : Symbol} {t t' : Option Ty} {o o' : Bool} [Same p n n'] [Same p t t'] [Same p o o'] :
    Same p (ParameterOf.mk n t o) (ParameterOf.mk n' t' o') :=
  ⟨(inferInstance : Same p (n, t, o) (n', t', o')).out⟩

section
variable {s s' : Signature} [h : Same p s s']

instance : Same p s.colon s'.colon := h.out.1
instance : Same p s.typeParams s'.typeParams := h.out.2.out.1
instance : Same p s.params s'.params := h.out.2.out.2.out.1
instance : Same p s.variadic s'.variadic := h.out.2.out.2.out.2.out.1
instance : Same p s.returns s'.returns := h.out.2.out.2.out.2.out.2
instance : Same p s.isGeneric s'.isGeneric :=
  inferInstanceAs (Same p (!s.typeParams.isEmpty) (!s'.typeParams.isEmpty))
end

instance {c c' : Bool} {tp tp' : List Ty} {ps ps' : List Parameter} {v v' r r' : Option Ty} [Same p c c']
    [Same p tp tp'] [Same p ps ps'] [Same p v v'] [Same p r r'] :
    Same p (SignatureOf.mk c tp ps v r) (SignatureOf.mk c' tp' ps' v' r') :=
  ⟨(inferInstance : Same p (c, tp, ps, v, r) (c', tp', ps', v', r')).out⟩

/-! ## Forms -/

inductive SameForm (p : Pairing) : Form → Form → Prop where
  | any : SameForm p .any .any
  | nil : SameForm p .nil .nil
  | void : SameForm p .void .void
  | primitive (kind : Primitive) : SameForm p (.primitive kind) (.primitive kind)
  | literal (kind : Primitive) (text text' : Symbol) [Same p text text'] :
    SameForm p (.literal kind text) (.literal kind text')
  | array (element element' : Ty) [Same p element element'] : SameForm p (.array element) (.array element')
  | classRef (name name' : Symbol) (marks : Marks) [Same p name name'] :
    SameForm p (.classRef name marks) (.classRef name' marks)
  | aliasRef (name name' : Symbol) (params params' : List Ty) (target target' : Ty) [Same p name name']
    [Same p params params'] [Same p target target'] :
    SameForm p (.aliasRef name params target) (.aliasRef name' params' target')
  | union (members members' : List Ty) [Same p members members'] : SameForm p (.union members) (.union members')
  | generic (base base' : Ty) (args args' : List Ty) [Same p base base'] [Same p args args'] :
    SameForm p (.generic base args) (.generic base' args')
  | function (main main' : Signature) (overloads overloads' : List Signature) (marks : Marks)
    [Same p main main'] [Same p overloads overloads'] :
    SameForm p (.function main overloads marks) (.function main' overloads' marks)
  | results (types types' : List Ty) (variadic : Bool) [Same p types types'] :
    SameForm p (.results types variadic) (.results types' variadic)
  | param (name name' written written' : Symbol) (bound bound' : Option Ty) [Same p name name']
    [Same p written written'] [Same p bound bound'] :
    SameForm p (.param name written bound) (.param name' written' bound')
  | snippet (text text' : Symbol) [Same p text text'] : SameForm p (.snippet text) (.snippet text')

instance : Value Form where
  same := SameForm
  later h := by cases h <;> constructor
  eq_iff {f f'} := by
    constructor
    · intro h
      cases h <;> simp_all [same_eq_iff]
    · rintro rfl
      cases f <;> constructor

section
variable {f f' : Form} [h : Same p f f']

instance : Same p f.kind f'.kind := by
  obtain ⟨h⟩ := h
  cases h <;> exact ⟨rfl⟩

instance : Same p f.marks f'.marks := by
  obtain ⟨h⟩ := h
  cases h <;> exact ⟨rfl⟩

instance {kind : Primitive} : SameProp p (f = .primitive kind) (f' = .primitive kind) := by
  obtain ⟨h⟩ := h
  constructor
  cases h <;> simp
end

section
variable {text text' : Symbol} {ty ty' base base' : Ty} {types types' : List Ty} {o o' : Option Ty}

instance {kind : Primitive} [Same p text text'] :
    Same p (FormOf.literal kind text : Form) (.literal kind text') := ⟨.literal ..⟩

instance [Same p ty ty'] : Same p (FormOf.array ty : Form) (.array ty') := ⟨.array ..⟩

instance {marks : Marks} [Same p name name'] :
    Same p (FormOf.classRef name marks : Form) (.classRef name' marks) := ⟨.classRef ..⟩

instance [Same p base base'] [Same p types types'] :
    Same p (FormOf.generic base types : Form) (.generic base' types') := ⟨.generic ..⟩

instance {main main' : Signature} {overloads overloads' : List Signature} {marks : Marks} [Same p main main']
    [Same p overloads overloads'] :
    Same p (FormOf.function main overloads marks : Form) (.function main' overloads' marks) := ⟨.function ..⟩

instance {b b' : Bool} [Same p types types'] [h : Same p b b'] :
    Same p (FormOf.results types b : Form) (.results types' b') := by
  obtain rfl := h.eq
  exact ⟨.results ..⟩

instance [Same p name name'] [Same p text text'] [Same p o o'] :
    Same p (FormOf.param name text o : Form) (.param name' text' o') := ⟨.param ..⟩
end

/-! ## Declarations -/

inductive SameKey (p : Pairing) : Key → Key → Prop where
  | field (name name' : Symbol) [Same p name name'] : SameKey p (.field name) (.field name')
  | index (type type' : Ty) [Same p type type'] : SameKey p (.index type) (.index type')

instance : Value Key where
  same := SameKey
  later h := by cases h <;> constructor
  eq_iff {k k'} := by
    constructor
    · intro h
      cases h <;> simp_all [same_eq_iff]
    · rintro rfl
      cases k <;> constructor

instance : Value Member :=
  .via (fun m => (m.key, m.type, m.declared, m.node)) (by rintro ⟨_, _, _, _⟩ ⟨_, _, _, _⟩ h; simp_all)

instance : Value ClassDecl :=
  .via (fun d => (d.name, d.marks, d.superClass, d.params, d.members, d.signatures, d.otherName, d.tableNode))
    (by rintro ⟨_, _, _, _, _, _, _, _⟩ ⟨_, _, _, _, _, _, _, _⟩ h; simp_all)

instance {name name' : Symbol} [Same p name name'] : Same p (Key.field name) (.field name') := ⟨.field ..⟩

instance {ty ty' : Ty} [Same p ty ty'] : Same p (Key.index ty) (.index ty') := ⟨.index ..⟩

/-- The same keys are two names or two indexes. -/
@[elab_as_elim]
theorem Same.key {motive : Key → Key → Prop} {k k' : Key} (h : Same p k k')
    (field : ∀ (name name' : Symbol) [Same p name name'], motive (.field name) (.field name'))
    (index : ∀ (ty ty' : Ty) [Same p ty ty'], motive (.index ty) (.index ty')) : motive k k' := by
  obtain ⟨h⟩ := h
  cases h with
  | field => exact field ..
  | index => exact index ..

section
variable {m m' : Member} [h : Same p m m']

instance : Same p m.key m'.key := h.out.1
instance : Same p m.type m'.type := h.out.2.out.1
instance : Same p m.declared m'.declared := h.out.2.out.2.out.1
instance : Same p m.node m'.node := h.out.2.out.2.out.2

instance : Same p m.name? m'.name? := by
  unfold Member.name?
  refine (inferInstance : Same p m.key m'.key).key (fun _ _ _ => ?_) fun _ _ _ => ?_ <;> infer_instance

instance : Same p m.index? m'.index? := by
  unfold Member.index?
  refine (inferInstance : Same p m.key m'.key).key (fun _ _ _ => ?_) fun _ _ _ => ?_ <;> infer_instance
end

instance {k k' : Key} {t t' : Option Ty} {d d' : Bool} {n n' : Option Node} [Same p k k'] [Same p t t']
    [Same p d d'] [Same p n n'] : Same p (Member.mk k t d n) (Member.mk k' t' d' n') :=
  ⟨(inferInstance : Same p (k, t, d, n) (k', t', d', n')).out⟩

instance {i i' t t' : Ty} [Same p i i'] [Same p t t'] : Same p (Member.indexed i t) (Member.indexed i' t') :=
  inferInstanceAs (Same p (Member.mk _ _ _ _) (Member.mk _ _ _ _))

section
variable {d d' : ClassDecl} [h : Same p d d']

instance : Same p d.name d'.name := h.out.1
instance : Same p d.marks d'.marks := h.out.2.out.1
instance : Same p d.superClass d'.superClass := h.out.2.out.2.out.1
instance : Same p d.params d'.params := h.out.2.out.2.out.2.out.1
instance : Same p d.members d'.members := h.out.2.out.2.out.2.out.2.out.1
instance : Same p d.signatures d'.signatures := h.out.2.out.2.out.2.out.2.out.2.out.1
instance : Same p d.otherName d'.otherName := h.out.2.out.2.out.2.out.2.out.2.out.2.out.1
instance : Same p d.tableNode d'.tableNode := h.out.2.out.2.out.2.out.2.out.2.out.2.out.2
end

instance {n n' : Symbol} {k k' : Marks} {u u' : Option Ty} {a a' : List Ty} {m m' : List Member}
    {g g' : List Signature} {o o' : Option Symbol} {i i' : Option Node} [Same p n n'] [Same p k k'] [Same p u u']
    [Same p a a'] [Same p m m'] [Same p g g'] [Same p o o'] [Same p i i'] :
    Same p (ClassDecl.mk n k u a m g o i) (ClassDecl.mk n' k' u' a' m' g' o' i') :=
  ⟨(inferInstance : Same p (n, k, u, a, m, g, o, i) (n', k', u', a', m', g', o', i')).out⟩

/-! ## Lists of values -/

instance : Value Results := .via (fun r => (r.types, r.variadic)) (by rintro ⟨_, _⟩ ⟨_, _⟩ h; simp_all)

section
variable {r r' : Results} [h : Same p r r']

instance : Same p r.types r'.types := h.out.1
instance : Same p r.variadic r'.variadic := h.out.2
end

instance {t t' : List Ty} {v v' : Bool} [Same p t t'] [Same p v v'] : Same p (Results.mk t v) (Results.mk t' v') :=
  ⟨(inferInstance : Same p (t, v) (t', v')).out⟩

/-! ## Bindings -/

instance : Value Bindings := .via entries (by rintro ⟨_⟩ ⟨_⟩ h; simp_all)

section
variable {b b' : Bindings} [h : Same p b b'] {ty ty' : Ty}

instance : Same p b.entries b'.entries := ⟨h.out⟩

instance {l l' : List (Symbol × Ty)} [h : Same p l l'] : Same p (mk l) (mk l') := ⟨h.out⟩

instance : Same p empty empty := inferInstanceAs (Same p (mk []) (mk []))

instance [Same p name name'] : Same p (b.get? name) (b'.get? name') :=
  inferInstanceAs (Same p (b.entries.lookup name) (b'.entries.lookup name'))

instance [Same p name name'] [Same p ty ty'] : Same p (b.insert name ty) (b'.insert name' ty') := by
  have key : ∀ l l' : List (Symbol × Ty), Same p l l' →
      Same p (insertEntry name ty l) (insertEntry name' ty' l') := by
    intro l l' h
    refine h.induction (by unfold insertEntry; infer_instance) fun x x' l l' _ _ ih => ?_
    unfold insertEntry
    infer_instance
  have := key b.entries b'.entries inferInstance
  exact inferInstanceAs (Same p (mk _) (mk _))

instance {l l' : List (Symbol × Ty)} [Same p l l'] : Same p (ofList l) (ofList l') :=
  Same.foldl fun b b' x x' _ _ => inferInstanceAs (Same p (b.insert x.1 x.2) (b'.insert x'.1 x'.2))
end

/-! ## Substitutions -/

mutual

inductive SameSubstitution (p : Pairing) : Substitution → Substitution → Prop where
  | aliases {names names'} :
    Same p names names' → SameSubstitution p (.aliases names) (.aliases names')
  | params {b b'} : Same p b b' → SameSubstitution p (.params b) (.params b')
  | receiver {ty ty'} : Same p ty ty' → SameSubstitution p (.receiver ty) (.receiver ty')
  | scope (node : Node) : SameSubstitution p (.scope node) (.scope node)
  | bounds : SameSubstitution p .bounds .bounds
  | chain {links links'} :
    SameLinks p links links' → SameSubstitution p (.chain links) (.chain links')

inductive SameLinks (p : Pairing) : List Substitution → List Substitution → Prop where
  | nil : SameLinks p [] []
  | cons {s s' links links'} :
    SameSubstitution p s s' → SameLinks p links links' → SameLinks p (s :: links) (s' :: links')
end

mutual

theorem SameSubstitution.later [p.After q] :
    ∀ {s s' : Substitution}, SameSubstitution p s s' → SameSubstitution q s s'
  | _, _, .aliases h => .aliases (h.upTo q)
  | _, _, .params h => .params (h.upTo q)
  | _, _, .receiver h => .receiver (h.upTo q)
  | _, _, .scope node => .scope node
  | _, _, .bounds => .bounds
  | _, _, .chain h => .chain h.later

theorem SameLinks.later [p.After q] :
    ∀ {links links' : List Substitution}, SameLinks p links links' → SameLinks q links links'
  | _, _, .nil => .nil
  | _, _, .cons h k => .cons h.later k.later
end

mutual

theorem SameSubstitution.eq : ∀ {s s' : Substitution}, SameSubstitution .eq s s' → s = s'
  | _, _, .aliases h => congrArg _ (same_eq_iff.1 h)
  | _, _, .params h => congrArg _ (same_eq_iff.1 h)
  | _, _, .receiver h => congrArg _ (same_eq_iff.1 h)
  | _, _, .scope _ => rfl
  | _, _, .bounds => rfl
  | _, _, .chain h => congrArg _ h.eq

theorem SameLinks.eq : ∀ {links links' : List Substitution}, SameLinks .eq links links' → links = links'
  | _, _, .nil => rfl
  | _, _, .cons h k => by rw [h.eq, k.eq]
end

mutual

theorem SameSubstitution.refl : ∀ s : Substitution, SameSubstitution .eq s s
  | .aliases _ => .aliases inferInstance
  | .params _ => .params inferInstance
  | .receiver _ => .receiver inferInstance
  | .scope node => .scope node
  | .bounds => .bounds
  | .chain links => .chain (SameLinks.refl links)

theorem SameLinks.refl : ∀ links : List Substitution, SameLinks .eq links links
  | [] => .nil
  | s :: links => .cons (SameSubstitution.refl s) (SameLinks.refl links)
end

instance : Value Substitution where
  same := SameSubstitution
  later h := h.later
  eq_iff {s _} := ⟨fun h => h.eq, fun h => h ▸ SameSubstitution.refl s⟩

theorem sameLinks_iff {links links' : List Substitution} : SameLinks p links links' ↔ Same p links links' := by
  constructor
  · intro h
    induction links generalizing links' with
    | nil => cases h; infer_instance
    | cons s links ih =>
      cases h with
      | cons h k =>
        have : Same p s _ := ⟨h⟩
        have := ih k
        infer_instance
  · intro h
    refine h.induction .nil fun s _ links _ hs _ ih => .cons hs.out ih

section
variable {links links' : List Substitution} {names names' : List Symbol} {b b' : Bindings} {ty ty' : Ty}

instance [h : Same p names names'] : Same p (aliases names) (.aliases names') := ⟨.aliases h⟩

instance [h : Same p b b'] : Same p (params b) (.params b') := ⟨.params h⟩

instance [h : Same p ty ty'] : Same p (receiver ty) (.receiver ty') := ⟨.receiver h⟩

instance {node : Node} : Same p (scope node) (.scope node) := ⟨.scope node⟩

instance : Same p bounds .bounds := ⟨.bounds⟩

instance [h : Same p links links'] : Same p (chain links) (.chain links') :=
  ⟨.chain (sameLinks_iff.2 h)⟩
end

/-! ## Searches -/

instance : Value Search :=
  .via (fun s => (s.params, s.callNodes, s.current, s.visiting))
    (by rintro ⟨_, _, _, _⟩ ⟨_, _, _, _⟩ h; simp_all)

section
variable {s s' : Search} [h : Same p s s']

instance : Same p s.params s'.params := h.out.1
instance : Same p s.callNodes s'.callNodes := h.out.2.out.1
instance : Same p s.current s'.current := h.out.2.out.2.out.1
instance : Same p s.visiting s'.visiting := h.out.2.out.2.out.2
end

instance {b b' : Bindings} {n n' : List Node} {c c' : Ty} {v v' : List Ty} [Same p b b'] [Same p n n']
    [Same p c c'] [Same p v v'] : Same p (Search.mk b n c v) (Search.mk b' n' c' v') :=
  ⟨(inferInstance : Same p (b, n, c, v) (b', n', c', v')).out⟩

/-! ## Guarded activities -/

inductive SameSubject (p : Pairing) : Subject → Subject → Prop where
  | node (node : Node) : SameSubject p (.node node) (.node node)
  | type (ty ty' : Ty) [Same p ty ty'] : SameSubject p (.type ty) (.type ty')
  | pair (a a' b b' : Ty) [Same p a a'] [Same p b b'] : SameSubject p (.pair a b) (.pair a' b')
  | name (name name' : Symbol) [Same p name name'] : SameSubject p (.name name) (.name name')

instance : Value Subject where
  same := SameSubject
  later h := by cases h <;> constructor
  eq_iff {s s'} := by
    constructor
    · intro h
      cases h <;> simp_all [same_eq_iff]
    · rintro rfl
      cases s <;> constructor

instance : Faithful Subject where
  iff := by
    rintro p a a' b b' ⟨h⟩ ⟨k⟩
    cases h <;> cases k <;> simp only [reduceCtorEq, Subject.node.injEq, Subject.type.injEq,
      Subject.pair.injEq, Subject.name.injEq] <;> exact SameProp.iff p

instance {ty ty' : Ty} [Same p ty ty'] : Same p (Subject.type ty) (.type ty') := ⟨.type ..⟩

instance {a a' b b' : Ty} [Same p a a'] [Same p b b'] : Same p (Subject.pair a b) (.pair a' b') := ⟨.pair ..⟩

/-! ## Reading off tables -/

class Pairing.Reads (p : Pairing) (t t' : TypeTable) : Prop where
  lookup : ∀ {ty ty' : Ty}, Same p ty ty' → Same p (t.lookup ty) (t'.lookup ty')
  text : ∀ {s s' : Symbol}, Same p s s' → t.text s = t'.text s'

section
variable {t t' : TypeTable} [r : p.Reads t t'] {ty ty' : Ty} [h : Same p ty ty']

instance : Same p (t.lookup ty) (t'.lookup ty') := r.lookup h

instance {s s' : Symbol} [h : Same p s s'] : Same p (t.text s) (t'.text s') := ⟨r.text h⟩

instance : Same p (t.kind ty) (t'.kind ty') :=
  inferInstanceAs (Same p (t.lookup ty).kind (t'.lookup ty').kind)

instance : Same p (t.marks ty) (t'.marks ty') :=
  inferInstanceAs (Same p (t.lookup ty).marks (t'.lookup ty').marks)

instance : Same p (t.members ty) (t'.members ty') := by
  have hf := r.lookup h
  unfold TypeTable.members
  generalize t.lookup ty = f at hf ⊢
  generalize t'.lookup ty' = f' at hf ⊢
  cases hf.out <;> infer_instance

instance {m m' : Ty} [Same p m m'] : Same p (t.contains ty m) (t'.contains ty' m') :=
  inferInstanceAs (Same p (ty == m || (t.members ty).contains m) (ty' == m' || (t'.members ty').contains m'))

instance : Same p (t.className? ty) (t'.className? ty') := by
  have hf := r.lookup h
  unfold TypeTable.className?
  generalize t.lookup ty = f at hf ⊢
  generalize t'.lookup ty' = f' at hf ⊢
  cases hf.out <;> infer_instance

instance : Same p (t.isSelfClass ty) (t'.isSelfClass ty') := by
  have hf := r.lookup h
  unfold TypeTable.isSelfClass
  generalize t.lookup ty = f at hf ⊢
  generalize t'.lookup ty' = f' at hf ⊢
  cases hf.out with
  | classRef name name' =>
    dsimp only
    rw [r.text (inferInstance : Same p name name')]
    infer_instance
  | _ => infer_instance

instance {params params' args args' : List Ty} [Same p params params'] [Same p args args'] :
    Same p (ofArgs t params args) (ofArgs t' params' args') := by
  have : Same p
      ((params.zip args).filterMap fun (param, arg) => (t.className? param).map fun name => (name, arg))
      ((params'.zip args').filterMap fun (param, arg) => (t'.className? param).map fun name => (name, arg)) :=
    Same.filterMap fun x x' _ =>
      show Same p ((t.className? x.1).map (·, x.2)) ((t'.className? x'.1).map (·, x'.2)) from
        Same.mapOption fun _ _ _ => inferInstance
  exact inferInstanceAs (Same p (ofList _) (ofList _))
end

end AnnotatedLua
