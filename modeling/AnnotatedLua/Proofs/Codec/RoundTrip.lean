/-
Reading inverts writing. A type that is not too deep, whose texts and lists are short enough to be counted and whose
unions are in order, is read back into any well-formed table as a type of the same tree.
-/
import AnnotatedLua.Proofs.Codec.Reading
import AnnotatedLua.Proofs.Type.Canonical
import Mathlib.Data.List.MinMax

namespace AnnotatedLua

open List
open FormOf (lengths parts)

variable {t : TypeTable} {members : List Ty} {n : Nat}

namespace TypeTable

/-! ## Types that can be written -/

def depthBelow (t : TypeTable) : Nat → Ty → Nat
  | 0, _ => 0
  | n + 1, ty => ((t.lookup ty).parts.map (t.depthBelow n)).foldr max 0 + 1

/-- How deep a type nests; a type without parts has depth one. -/
def depth (t : TypeTable) (ty : Ty) : Nat := t.depthBelow (t.size + 1) ty

theorem Grounded.depth_eq (h : t.Grounded) (ty : Ty) :
    t.depth ty = ((t.lookup ty).parts.map t.depth).foldr max 0 + 1 := by
  refine h.walk_eq (fun g form => (form.parts.map g).foldr max 0 + 1) (fun g _ _ hg => ?_)
    t.depthBelow (fun _ _ => rfl) ty
  rw [map_congr_left fun p hp => hg p (mem_reads hp)]

theorem Grounded.depth_part_lt (h : t.Grounded) {ty p : Ty} (hp : p ∈ (t.lookup ty).parts) :
    t.depth p < t.depth ty := by
  rw [h.depth_eq ty]
  exact Nat.lt_succ_of_le (le_max_of_le' 0 (mem_map_of_mem hp) le_rfl)

/-- The types that a type is made of, with itself. -/
inductive Inside (t : TypeTable) : Ty → Ty → Prop
  | here (ty : Ty) : Inside t ty ty
  | part {ty p u} : p ∈ (t.lookup ty).parts → Inside t p u → Inside t ty u

theorem Inside.index_le (h : t.Grounded) {ty u : Ty} (hu : t.Inside ty u) : u.index ≤ ty.index := by
  induction hu with
  | here => exact le_refl _
  | part hp _ ih => exact ih.trans (h.part_lt hp).1.le

/-- A union has two or more members, in the order of their names. -/
def Ordered (t : TypeTable) : Form → Prop
  | .union members => 2 ≤ members.length ∧ members.Pairwise fun a b => t.name a < t.name b
  | _ => True

/-- Lengths that fit their four bytes, and a union in order. -/
structure Writable (t : TypeTable) (form : Form) : Prop where
  texts : ∀ s ∈ form.names, (t.text s).utf8ByteSize < 2 ^ 32
  lengths : ∀ n ∈ form.lengths, n < 2 ^ 32
  ordered : t.Ordered form

instance (t : TypeTable) (form : Form) : Decidable (t.Ordered form) :=
  match form with
  | .union members =>
    inferInstanceAs (Decidable (2 ≤ members.length ∧ members.Pairwise fun a b => t.name a < t.name b))
  | .any | .nil | .void | .primitive _ | .literal _ _ | .array _ | .classRef _ _ | .aliasRef _ _ _
  | .generic _ _ | .function _ _ _ | .results _ _ | .param _ _ _ | .snippet _ =>
    inferInstanceAs (Decidable True)

instance (t : TypeTable) (form : Form) : Decidable (t.Writable form) :=
  decidable_of_iff ((∀ s ∈ form.names, (t.text s).utf8ByteSize < 2 ^ 32) ∧
    (∀ n ∈ form.lengths, n < 2 ^ 32) ∧ t.Ordered form)
    ⟨fun ⟨h1, h2, h3⟩ => ⟨h1, h2, h3⟩, fun h => ⟨h.texts, h.lengths, h.ordered⟩⟩

end TypeTable

namespace Codec

open TypeTable Pairing

variable {I : TypeTable} {hI : I.WF} {p : Pairing} {ty : Ty} {form : Form}

/-! ## Storing what was read -/

theorem reads_form {form' : Form} (hty : I.Has ty) (hl : I.lookup ty = form) (e : SameForm p form form') :
    Reads hI p (store (.form form')) [] ty := by
  intro J hJ _ _ _
  have e : Same p form form' := ⟨e⟩
  have hstored : I.forms[ty.index]? = some form := hl ▸ hty.form
  obtain ⟨_, k, hs⟩ := intern_same (e.upTo (pairing hI hJ))
  have hs := sameType_iff.1 hs
  rw [hI.intern_of_stored hstored] at hs
  refine ⟨_, _, k, rfl, intern_extends J form', fun hx => ?_, sameType_iff.2 hs⟩
  have : (pairing hI hJ).After .eq := pairing_after_eq hx
  obtain rfl := same_eq_iff.1 ((e.upTo (pairing hI hJ)).upTo .eq)
  rw [hJ.intern_of_stored (hx.forms _ _ hstored)]
  exact ⟨rfl, rfl⟩

theorem unionOf_stored (h : t.WF) (hty : t.Has ty) (hl : t.lookup ty = .union members)
    (ho : t.Ordered (.union members)) : t.unionOf members = (ty, members.foldl keepName t) := by
  have hmembers : ∀ m ∈ members, t.Has m := fun m hm => h.part_has hl hm
  have hnodup : (members.map t.name).Nodup := (pairwise_map.2 ho.2).imp ne_of_lt
  obtain ⟨hw, hx, -, -⟩ := h.keepNames hmembers
  rw [h.unionOf_several hmembers (fun a ha b hb => inj_on_of_nodup_map hnodup ha hb) hnodup.of_map ho.1,
    sortByName_of_ordered ho.2, hw.intern_of_stored (hx.forms _ _ (hl ▸ hty.form))]

theorem reads_union {types : List Ty} (hty : I.Has ty) (hl : I.lookup ty = .union members)
    (ho : I.Ordered (.union members)) [e : Same p members types] : Reads hI p (store (.unionOf types)) [] ty := by
  intro J hJ _ _ _
  obtain ⟨k0, k, hs⟩ := unionOf_same (e.upTo (pairing hI hJ))
  obtain ⟨-, hty', htree⟩ := sameType_iff.1 hs
  have hstored := unionOf_stored hI hty hl ho
  rw [(unionOf_extends I members).tree_eq hI k0 (by rw [hstored]; exact hty), hstored] at htree
  refine ⟨_, _, k, rfl, unionOf_extends J types, fun hx => ?_, sameType_iff.2 ⟨hty, hty', htree⟩⟩
  have : (pairing hI hJ).After .eq := pairing_after_eq hx
  obtain rfl := same_eq_iff.1 ((e.upTo (pairing hI hJ)).upTo .eq)
  have hmembers : ∀ m ∈ members, I.Has m := fun m hm => hI.part_has hl hm
  have ho : J.Ordered (.union members) := ⟨ho.1, ho.2.imp_of_mem fun ha hb _ => by
    rwa [hx.name hI hJ (hmembers _ ha), hx.name hI hJ (hmembers _ hb)]⟩
  rw [show J.unionOf members = _ from unionOf_stored hJ (hx.has hty) ((hx.lookup hty).trans hl) ho]
  exact (hJ.keepNames fun m hm => hx.has (hmembers m hm)).2.2

/-! ## Parameters and signatures -/

theorem text_ne_nil (x : String) : text x ≠ [] := by simp [text, length, word]

theorem parameter_ne_nil (p : Parameter) (part : Ty → List UInt8) : parameter I part p ≠ [] := by
  simp [parameter, symbol, text_ne_nil]

theorem signature_ne_nil (s : Signature) (part : Ty → List UInt8) : signature I part s ≠ [] := by
  simp [signature, flag, byte]

theorem encode_ne_nil (hI : I.WF) (ty : Ty) : encode I ty ≠ [] := by
  rw [hI.encode_eq]; simp [header, byte]

section
variable {part : Decoder Ty}

theorem reads_parameter {x : Parameter} (hs : I.HasSymbol x.name) (hx : (I.text x.name).utf8ByteSize < 2 ^ 32)
    (hp : ∀ t ∈ x.type, ∀ q, Reads hI q part (encode I t) t) :
    Reads hI p (readParameter part) (parameter I (encode I) x) x := by
  unfold parameter
  simp only [append_assoc]
  refine (reads_symbol hs hx).bind fun _ _ _ _ => (reads_flag x.optional).bind fun _ _ _ _ => ?_
  refine (reads_optional hp).bindLast fun q _ _ _ => ?_
  show Reads hI q _ [] (ParameterOf.mk x.name x.type x.optional)
  exact .pure

theorem reads_signature {s : Signature} (hs : ∀ n ∈ s.names, I.HasSymbol n)
    (hx : ∀ n ∈ s.names, (I.text n).utf8ByteSize < 2 ^ 32) (hl : ∀ n ∈ s.lengths, n < 2 ^ 32)
    (hp : ∀ t ∈ s.parts, ∀ q, Reads hI q part (encode I t) t) :
    Reads hI p (readSignature part) (signature I (encode I) s) s := by
  simp only [SignatureOf.parts, mem_append, mem_flatMap, Option.mem_toList] at hp
  simp only [SignatureOf.names, mem_map, forall_exists_index, and_imp,
    forall_apply_eq_imp_iff₂] at hs hx
  unfold signature
  simp only [append_assoc]
  refine (reads_flag s.colon).bind fun _ _ _ _ => ?_
  refine (reads_list (hl _ (by simp [SignatureOf.lengths])) (fun t _ => encode_ne_nil hI t)
    fun t ht => hp t (.inl (.inl (.inl ht)))).bind fun _ _ _ _ => ?_
  refine (reads_list (hl _ (by simp [SignatureOf.lengths])) (fun x _ => parameter_ne_nil x _)
    fun x hm _ => reads_parameter (hs x hm) (hx x hm)
      fun t ht => hp t (.inl (.inl (.inr ⟨x, hm, ht⟩)))).bind fun _ _ _ _ => ?_
  refine (reads_optional fun t ht => hp t (.inl (.inr ht))).bind fun _ _ _ _ => ?_
  refine (reads_optional fun t ht => hp t (.inr ht)).bindLast fun q _ _ _ => ?_
  show Reads hI q _ [] (SignatureOf.mk s.colon s.typeParams s.params s.variadic s.returns)
  exact .pure
end

/-! ## Types -/

theorem reads_builtin {b : Ty} (hty : I.Has ty) (hb : b.isBuiltin = true) (hl : I.lookup ty = initial.lookup b) :
    Reads hI p (pure b) [] ty := by
  obtain ⟨hhas, hlook⟩ := hI.lookup_builtin b hb
  obtain rfl := hI.eq_of_lookup hhas hty (hlook.trans hl.symm)
  have : Same p b b := ⟨p.builtin b hb⟩
  exact .pure

theorem reads_type (hty : I.Has ty) (hw : I.Writable (I.lookup ty)) {part : Decoder Ty}
    (hp : ∀ t ∈ (I.lookup ty).parts, ∀ q, Reads hI q part (encode I t) t) :
    Reads hI p (readType part) (encode I ty) ty := by
  have hs : ∀ s ∈ (I.lookup ty).names, I.HasSymbol s := fun s => hI.hasSymbol
  obtain ⟨hx, hlen, ho⟩ := hw
  rw [hI.encode_eq]
  unfold header
  rw [append_assoc]
  refine (reads_kind _).bindEq fun _ _ => (reads_word (toBits_lt _)).bindEq fun _ _ => ?_
  dsimp only
  rw [ofBits_toBits]
  cases hf : I.lookup ty with
  | any | nil | void => exact reads_builtin hty rfl (hf.trans (by decide))
  | primitive kind =>
    refine (reads_primitive kind).bindLast fun _ _ _ hk => hk.eq ▸ reads_builtin hty ?_ (hf.trans ?_)
    · cases kind <;> rfl
    · cases kind <;> decide
  | literal kind value =>
    rw [hf] at hs hx
    refine (reads_primitive kind).bindEq fun _ _ => ?_
    exact (reads_symbol (hs value (by simp)) (hx value (by simp))).bindLast
      fun _ _ _ _ => reads_form hty hf (.literal ..)
  | array element =>
    rw [hf] at hp
    exact (hp element (by simp) _).bindLast fun _ _ _ _ => reads_form hty hf (.array ..)
  | classRef name =>
    rw [hf] at hs hx
    exact (reads_symbol (hs name (by simp)) (hx name (by simp))).bindLast
      fun _ _ _ _ => reads_form hty hf (.classRef ..)
  | aliasRef name params target =>
    rw [hf] at hs hx hlen hp
    simp only [parts, mem_append, mem_singleton] at hp
    simp only [payload, append_assoc]
    refine (reads_symbol (hs name (by simp)) (hx name (by simp))).bind
      fun _ _ _ _ => ?_
    refine (reads_list (hlen _ (by simp [lengths])) (fun t _ => encode_ne_nil hI t)
      fun t ht => hp t (.inl ht)).bind fun _ _ _ _ => ?_
    exact (hp target (.inr rfl) _).bindLast fun _ _ _ _ => reads_form hty hf (.aliasRef ..)
  | union =>
    rw [hf] at hlen hp ho
    simp only [parts] at hp
    exact (reads_list (hlen _ (by simp [lengths])) (fun t _ => encode_ne_nil hI t) hp).bindLast
      fun _ _ _ _ => reads_union hty hf ho
  | generic base =>
    rw [hf] at hlen hp
    simp only [parts, mem_cons] at hp
    refine (hp base (.inl rfl) _).bind fun _ _ _ _ => ?_
    exact (reads_list (hlen _ (by simp [lengths])) (fun t _ => encode_ne_nil hI t)
      fun t ht => hp t (.inr ht)).bindLast fun _ _ _ _ => reads_form hty hf (.generic ..)
  | function main overloads =>
    rw [hf] at hs hx hlen hp
    simp only [parts, FormOf.names, lengths, mem_flatMap, mem_cons] at hp hs hx hlen
    have hsig : ∀ s, s = main ∨ s ∈ overloads → ∀ q, Reads hI q (readSignature part) (signature I (encode I) s) s :=
      fun s hm q => reads_signature (fun n hn => hs n ⟨s, hm, hn⟩) (fun n hn => hx n ⟨s, hm, hn⟩)
        (fun n hn => hlen n (.inr ⟨s, hm, hn⟩)) fun t ht => hp t ⟨s, hm, ht⟩
    refine (hsig main (.inl rfl) _).bind fun _ _ _ _ => ?_
    exact (reads_list (hlen _ (.inl rfl)) (fun s _ => signature_ne_nil s _)
      fun s hm => hsig s (.inr hm)).bindLast fun _ _ _ _ => reads_form hty hf (.function ..)
  | results types variadic =>
    rw [hf] at hlen hp
    simp only [parts] at hp
    refine (reads_flag variadic).bindEq fun _ _ => ?_
    exact (reads_list (hlen _ (by simp [lengths])) (fun t _ => encode_ne_nil hI t) hp).bindLast
      fun _ _ _ _ => reads_form hty hf (.results ..)
  | param name written =>
    rw [hf] at hs hx hp
    simp only [parts, Option.mem_toList] at hp
    simp only [payload, append_assoc]
    refine (reads_symbol (hs name (by simp)) (hx name (by simp))).bind
      fun _ _ _ _ => ?_
    refine (reads_symbol (hs written (by simp)) (hx written (by simp))).bind
      fun _ _ _ _ => ?_
    exact (reads_optional hp).bindLast fun _ _ _ _ => reads_form hty hf (.param ..)
  | snippet value =>
    rw [hf] at hs hx
    exact (reads_symbol (hs value (by simp)) (hx value (by simp))).bindLast
      fun _ _ _ _ => reads_form hty hf (.snippet ..)

theorem reads_within (hty : I.Has ty) (hd : I.depth ty ≤ n)
    (hw : ∀ u, I.Inside ty u → I.Writable (I.lookup u)) : Reads hI p (readBelow n) (encode I ty) ty := by
  induction n generalizing ty p with
  | zero =>
    rw [hI.depth_eq] at hd
    omega
  | succ n ih =>
    refine reads_type hty (hw ty (.here ty)) fun t ht _ => ?_
    have := hI.depth_part_lt ht
    exact ih (hI.part_lt ht).2 (by omega) fun u hu => hw u (.part ht hu)

structure Step (I J J' : TypeTable) : Prop where
  wf : J'.WF
  grows : J.Extends J'
  kept : I.Extends J → J'.forms = J.forms ∧ J'.symbols = J.symbols

theorem reads_below {J : TypeTable} (hI : I.WF) (hJ : J.WF) (hty : I.Has ty) (hd : I.depth ty ≤ n)
    (hw : ∀ u, I.Inside ty u → I.Writable (I.lookup u)) (rest : List UInt8) (offset : Nat) :
    ∃ ty' J', (readBelow n).run ⟨encode I ty ++ rest, offset, J⟩ =
        (.ok ty', ⟨rest, offset + (encode I ty).length, J'⟩) ∧
      Step I J J' ∧ ∀ K : TypeTable, K.WF → J'.Extends K → K.Has ty' ∧ K.tree ty' = I.tree ty := by
  have := After.refl (pairing hI hJ)
  have hread : Reads hI (pairing hI hJ) (readBelow n) (encode I ty) ty := reads_within hty hd hw
  obtain ⟨ty', J', k, hrun, hx, hkept, hsame⟩ := hread J hJ rest offset
  obtain ⟨-, hty', htree⟩ := sameType_iff.1 hsame
  refine ⟨ty', J', hrun, ⟨k, hx, hkept⟩, fun K hK hxK => ⟨hxK.has hty', ?_⟩⟩
  rw [hxK.tree_eq k hK hty', htree]

/-- A written type is read back as a type of the same tree and the same bytes. In the table that it was
written from it is the same handle, and nothing is stored. -/
theorem decode_encode {I J : TypeTable} (hI : I.WF) (hJ : J.WF) {ty : Ty} (hty : I.Has ty)
    (hdepth : I.depth ty ≤ maxDepth) (hw : ∀ u, I.Inside ty u → I.Writable (I.lookup u)) :
    ∃ ty' J', decode (encode I ty) J = (.ok ty', J') ∧ J'.WF ∧ J.Extends J' ∧ J'.Has ty' ∧
      J'.tree ty' = I.tree ty ∧ encode J' ty' = encode I ty ∧
      (J = I → ty' = ty ∧ J'.forms = I.forms ∧ J'.symbols = I.symbols) := by
  obtain ⟨ty', J', hrun, hstep, hc⟩ := reads_below hI hJ hty hdepth hw [] 0
  obtain ⟨hty', htree⟩ := hc J' hstep.wf (.refl J')
  refine ⟨ty', J', ?_, hstep.wf, hstep.grows, hty', htree,
    encode_of_tree hstep.wf.toGrounded hI.toGrounded htree, ?_⟩
  · rw [List.append_nil] at hrun
    unfold decode
    rw [hrun]
    rfl
  · rintro rfl
    refine ⟨hstep.wf.eq_of_tree hty' (hstep.grows.has hty) ?_, hstep.kept (.refl J)⟩
    rw [htree, hstep.grows.tree_eq hI hstep.wf hty]

/-- A table with an array of numbers and strings, `⟨11⟩`. -/
def unnamedPairs : TypeTable := .ofForms ["Pairs"] [.union [Ty.number, Ty.string], .array ⟨10⟩]

/-- The array has a name, `⟨12⟩`. -/
def pairs : TypeTable := (unnamedPairs.intern (.aliasRef ⟨3⟩ [] ⟨11⟩)).2

theorem pairs_wf : pairs.WF := Orderly.wf (by decide)

theorem pairs_writable (u : Ty) (h : pairs.Inside ⟨12⟩ u) : pairs.Writable (pairs.lookup u) := by
  have hall : ∀ i < 13, pairs.Writable (pairs.lookup ⟨i⟩) := by decide
  exact hall u.index (Nat.lt_succ_of_le (h.index_le pairs_wf.toGrounded))

theorem decode_encode_pairs : pairs.WF ∧ initial.WF ∧ pairs.Has ⟨12⟩ ∧ pairs.depth ⟨12⟩ ≤ maxDepth ∧
    (∀ u, pairs.Inside ⟨12⟩ u → pairs.Writable (pairs.lookup u)) ∧
    ∃ ty' J', decode (encode pairs ⟨12⟩) initial = (.ok ty', J') ∧ J'.WF ∧ initial.Extends J' ∧ J'.Has ty' ∧
      J'.tree ty' = pairs.tree ⟨12⟩ ∧ encode J' ty' = encode pairs ⟨12⟩ ∧
      (initial = pairs → ty' = ⟨12⟩ ∧ J'.forms = pairs.forms ∧ J'.symbols = pairs.symbols) := by
  have hty : pairs.Has ⟨12⟩ := by decide
  have hdepth : pairs.depth ⟨12⟩ ≤ maxDepth := by decide
  exact ⟨pairs_wf, initial_wf, hty, hdepth, pairs_writable,
    decode_encode pairs_wf initial_wf hty hdepth pairs_writable⟩

end Codec

end AnnotatedLua
