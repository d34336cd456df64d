/-
Accepted bytes. What a reader makes of them depends neither on what comes after them nor on what is stored, and it can be
written again (`Reader`). So accepted bytes delimit themselves (`decode_delimited`), and what they were read as is read
back from its own bytes (`decode_normalises`).
-/
import AnnotatedLua.Proofs.Codec.RoundTrip
import AnnotatedLua.Proofs.Codec.Stored

namespace AnnotatedLua

open List
open FormOf (lengths parts union)

variable {n : Nat} {form : Form} {types : List Ty}

namespace TypeTable

variable {t : TypeTable} {ty : Ty}

/-! ## What fits its bytes -/

/-- A stored type that can be written, and nests at most to the given depth. -/
structure Fit (t : TypeTable) (n : Nat) (ty : Ty) : Prop where
  stored : t.Has ty
  depth : t.depth ty ≤ n
  writable : ∀ u, t.Inside ty u → t.Writable (t.lookup u)

structure Short (t : TypeTable) (s : Symbol) : Prop where
  stored : t.HasSymbol s
  size : (t.text s).utf8ByteSize < 2 ^ 32

/-- Types, texts and lengths that can be written. -/
def AllFit (t : TypeTable) (n : Nat) (parts : List Ty) (names : List Symbol) (lengths : List Nat) : Prop :=
  (∀ p ∈ parts, t.Fit n p) ∧ (∀ s ∈ names, t.Short s) ∧ ∀ k ∈ lengths, k < 2 ^ 32

theorem foldr_max_le {l : List Nat} (h : ∀ k ∈ l, k ≤ n) : l.foldr max 0 ≤ n := by
  induction l with
  | nil => exact Nat.zero_le n
  | cons k l ih => exact max_le (h k (by simp)) (ih fun m hm => h m (by simp [hm]))

theorem Grounded.fit (h : t.Grounded) (hl : t.forms[ty.index]? = some form)
    (hf : t.AllFit n form.parts form.names form.lengths) (ho : t.Ordered form) : t.Fit (n + 1) ty := by
  have hlook := lookup_of_form hl
  refine ⟨has_of_form hl, ?_, fun u hu => ?_⟩
  · rw [h.depth_eq, hlook]
    refine Nat.succ_le_succ (foldr_max_le fun k hk => ?_)
    obtain ⟨p, hp, rfl⟩ := mem_map.1 hk
    exact (hf.1 p hp).depth
  · cases hu with
    | here =>
      rw [hlook]
      exact ⟨fun s hs => (hf.2.1 s hs).size, hf.2.2, ho⟩
    | part hp hu => exact (hf.1 _ (hlook ▸ hp)).writable u hu

theorem Fit.mono (h : t.Fit n ty) : t.Fit (n + 1) ty := ⟨h.stored, h.depth.trans (Nat.le_succ n), h.writable⟩

theorem WF.fit_leaf (h : t.WF) (form : Form) (hl : initial.forms[ty.index]? = some form)
    (hleaf : form.parts = [] ∧ form.names = [] ∧ form.lengths = []) (ho : t.Ordered form) : t.Fit (n + 1) ty :=
  h.fit (h.base.forms _ _ hl) (by simp [-parts, -FormOf.names, AllFit, hleaf]) ho

theorem exists_kept (hty : ty ∈ types) : ∃ name, (types.foldl keepName t).names[ty]? = some name := by
  induction types generalizing t with
  | nil => cases hty
  | cons head rest ih =>
    rcases mem_cons.1 hty with rfl | hty
    · have hkept : ∃ name, (t.keepName ty).names[ty]? = some name := by
        unfold keepName
        split
        · rename_i name hname
          exact ⟨name, hname⟩
        · exact ⟨_, Std.TreeMap.getElem?_insert_self⟩
      exact hkept.imp ((keepNames_extends _ rest).names ty)
    · exact ih hty

theorem Extends.name_kept {t' : TypeTable} (hx : t.Extends t') (hk : ∃ name, t.names[ty]? = some name) :
    t'.name ty = t.name ty := by
  obtain ⟨_, hname⟩ := hk
  simp only [TypeTable.name, hname, hx.names _ _ hname]

/-- A union of types that fit fits, too: its members are in order, and their names are kept. -/
theorem WF.fit_unionOf {u : TypeTable} (h : t.WF) (hx : (u.unionOf types).2.Extends t)
    (hlen : types.length < 2 ^ 32) (hty : ∀ ty ∈ types, t.Fit n ty) : t.Fit (n + 1) (u.unionOf types).1 := by
  rcases u.unionOf_inv types with ⟨⟨hvoid, -⟩ | hmem, -⟩ | ⟨members, hsub, hord, he⟩
  · rw [hvoid]
    exact h.fit_leaf .void (by decide) ⟨rfl, rfl, rfl⟩ trivial
  · exact (hty _ hmem).mono
  · rw [he] at hx ⊢
    have hname (m : Ty) (hm : m ∈ members) := ((intern_extends _ _).trans hx).name_kept (exists_kept (hsub.subset hm))
    have hlength : ∀ k ∈ (union members : Form).lengths, k < 2 ^ 32 := by
      simpa [lengths] using hsub.length_le.trans_lt hlen
    refine h.fit (hx.forms _ _ (intern_form _ _)) ⟨fun p hp => hty p (hsub.subset hp), forall_mem_nil _, hlength⟩
      ⟨hord.several, ?_⟩
    refine hord.ordered.imp_of_mem fun ha hb _ => ?_
    rwa [hname _ ha, hname _ hb]

end TypeTable

namespace Codec

open TypeTable

def From {α : Type} (J : TypeTable) (Q : TypeTable → α → Prop) (a : α) : Prop := ∀ K, K.WF → J.Extends K → Q K a

variable {α β : Type} {C : α → α → Prop} {D : β → β → Prop} {P : TypeTable → α → Prop} {Q : TypeTable → β → Prop}
  {x y : Decoder α} {N : Nat}

/-! ## The same bytes with more after them -/

/-- What the first reader makes of an input that ends at `N` the second makes of the same input with more after it, in
any table. Only where the input ends too early may the second go on. Of what the first gives `P` is known. -/
structure Reader (N : Nat) (C : α → α → Prop) (P : TypeTable → α → Prop) (x y : Decoder α) : Prop where
  ok : ∀ {c c' : Cursor} {a} more t, c.offset + c.rest.length = N → x.run c = (.ok a, c') →
    c'.offset + c'.rest.length = N ∧ c.types.Extends c'.types ∧ From c'.types P a ∧
      ∃ b u, C a b ∧ y.run ⟨c.rest ++ more, c.offset, t⟩ = (.ok b, ⟨c'.rest ++ more, c'.offset, u⟩)
  error : ∀ {c c' : Cursor} {e} more t, c.offset + c.rest.length = N → x.run c = (.error e, c') →
    (∃ k ≤ N, e = .truncated k) ∨ ∃ d, y.run ⟨c.rest ++ more, c.offset, t⟩ = (.error e, d)

/-- Nothing is known of handles of different tables. -/
def Any (_ _ : α) : Prop := True

namespace Reader

theorem imp {P' : TypeTable → α → Prop} (h : Reader N C P x y) (hP : ∀ K a, K.WF → P K a → P' K a) :
    Reader N C P' x y where
  ok more t hN hrun := by
    obtain ⟨hN, hx, ha, hy⟩ := h.ok more t hN hrun
    exact ⟨hN, hx, fun K hK hxK => hP K _ hK (ha K hK hxK), hy⟩
  error := h.error

theorem pure {a b : α} (h : C a b) (hP : ∀ K, K.WF → P K a) : Reader N C P (Pure.pure a) (Pure.pure b) where
  ok _ t hN hrun := by
    cases hrun
    exact ⟨hN, .refl _, fun K hK _ => hP K hK, b, t, h, rfl⟩
  error _ _ _ hrun := by cases hrun

theorem throw {e : DecodeError} : Reader N C P (MonadExcept.throw e) (MonadExcept.throw e) where
  ok _ _ _ hrun := by cases hrun
  error _ _ _ hrun := by
    cases hrun
    exact .inr ⟨_, rfl⟩

theorem bind {f g : α → Decoder β} (hx : Reader N C P x y)
    (hf : ∀ a b, C a b → Reader N D (fun K r => P K a → Q K r) (f a) (g b)) : Reader N D Q (x >>= f) (y >>= g) where
  ok more t hN hrun := by
    obtain ⟨a, c1, hfirst, hsecond⟩ := run_bind_ok_iff.1 hrun
    obtain ⟨hN, hgrows, ha, b, u, hab, hy⟩ := hx.ok more t hN hfirst
    obtain ⟨hN, hgrows', hr, b', v, hab', hg⟩ := (hf a b hab).ok more u hN hsecond
    exact ⟨hN, hgrows.trans hgrows', fun K hK hK' => hr K hK hK' (ha K hK (hgrows'.trans hK')), b', v, hab',
      (run_bind hy).trans hg⟩
  error {c} _ _ more t hN hrun := by
    rcases hfirst : x.run c with ⟨_ | a, _⟩
    · rw [run_bind_error hfirst] at hrun
      cases hrun
      exact (hx.error more t hN hfirst).imp_right (.imp fun _ hy => run_bind_error hy)
    · rw [run_bind hfirst] at hrun
      obtain ⟨hN, -, -, b, u, hab, hy⟩ := hx.ok more t hN hfirst
      exact ((hf a b hab).error more u hN hrun).imp_right (.imp fun _ hg => (run_bind hy).trans hg)

/-- A reader whose answer decides what comes next. -/
theorem bindEq {f : α → Decoder β} (hx : Reader N Eq P x x)
    (hf : ∀ a, Reader N D (fun K r => P K a → Q K r) (f a) (f a)) : Reader N D Q (x >>= f) (x >>= f) :=
  hx.bind fun a _ hab => hab ▸ hf a

theorem store {act act' : Interning α} (hx : act.Grows) (hP : ∀ t, From (act t).2 P (act t).1) :
    Reader N Any P (Codec.store act) (Codec.store act') where
  ok _ t hN hrun := by
    cases hrun
    exact ⟨hN, hx _, hP _, (act' t).1, (act' t).2, trivial, rfl⟩
  error _ _ _ hrun := by cases hrun

end Reader

/-! ## Bytes and texts -/

theorem reader_take (n : Nat) : Reader N Eq (fun _ bytes => bytes.length = n) (take n) (take n) := by
  have hrun (c : Cursor) : (take n).run c = if n ≤ c.rest.length then
      (.ok (c.rest.take n), { c with rest := c.rest.drop n, offset := c.offset + n })
      else (.error (.truncated c.offset), c) := by
    show (if n ≤ c.rest.length then _ else _ : Decoder (List UInt8)).run c = _
    split <;> rfl
  constructor
  · intro c c' a more t hN h
    rw [hrun] at h
    split at h <;> cases h
    rename_i hle
    refine ⟨by simp; omega, .refl _, fun _ _ _ => length_take_of_le hle, _, t, rfl, ?_⟩
    rw [hrun, if_pos (by simp; omega), take_append_of_le_length hle, drop_append_of_le_length hle]
  · intro c _ e _ t _ h
    rw [hrun] at h
    split at h <;> cases h
    exact .inl ⟨c.offset, by omega, rfl⟩

theorem reader_offset : Reader N (fun a b => a = b ∧ a ≤ N) (fun _ _ => True) offset offset where
  ok _ t hN hrun := by
    cases hrun
    exact ⟨hN, .refl _, fun _ _ _ => trivial, _, t, ⟨rfl, by omega⟩, rfl⟩
  error _ _ _ hrun := by cases hrun

theorem ofBytes_lt (bytes : List UInt8) : ofBytes bytes < 2 ^ (8 * bytes.length) := by
  induction bytes with
  | nil => decide
  | cons b bytes =>
    have := b.toNat_lt
    rw [length_cons, Nat.mul_succ, Nat.pow_add]
    show b.toNat + 0x100 * ofBytes bytes < _
    omega

theorem reader_byte : Reader N Eq (fun _ _ => True) readByte readByte :=
  (reader_take 1).bindEq fun _ => .pure rfl fun _ _ _ => trivial

theorem reader_word : Reader N Eq (fun _ n => n < 2 ^ 32) readWord readWord := by
  refine (reader_take 4).bindEq fun bytes => .pure rfl fun _ _ hlen => ?_
  have := ofBytes_lt bytes
  rwa [hlen] at this

theorem reader_length : Reader N Eq (fun _ n => n < 2 ^ 32) readLength readLength := by
  refine .bind reader_offset ?_
  rintro start _ ⟨rfl, hstart⟩
  refine .bindEq reader_word fun n => ?_
  have hrun (c : Cursor) :
      (do if n ≤ (← get).rest.length then return n else throw (.truncated start) : Decoder Nat).run c =
      if n ≤ c.rest.length then (.ok n, c) else (.error (.truncated start), c) := by
    show (if n ≤ c.rest.length then _ else _ : Decoder Nat).run c = _
    split <;> rfl
  constructor
  · intro c c' a more t hN h
    rw [hrun] at h
    split at h <;> cases h
    exact ⟨hN, .refl _, fun _ _ _ hn _ => hn, n, t, rfl, by rw [hrun, if_pos (by simp; omega)]⟩
  · intro c _ e _ t _ h
    rw [hrun] at h
    split at h <;> cases h
    exact .inl ⟨start, hstart, rfl⟩

theorem reader_tag {next : Nat → Nat → Decoder α} (h : ∀ start tag, Reader N Eq (fun _ _ => True) (next start tag)
    (next start tag)) : Reader N Eq (fun _ _ => True) (do let start ← offset; let tag ← readByte; next start tag)
      (do let start ← offset; let tag ← readByte; next start tag) := by
  refine .bind reader_offset ?_
  rintro start _ ⟨rfl, -⟩
  exact .bindEq reader_byte fun tag => (h start tag).imp fun _ _ _ _ _ _ => trivial

theorem reader_flag : Reader N Eq (fun _ _ => True) readFlag readFlag := by
  refine reader_tag fun _ tag => ?_
  split
  · exact .pure rfl fun _ _ => trivial
  · exact .pure rfl fun _ _ => trivial
  · exact .throw

theorem reader_primitive : Reader N Eq (fun _ _ => True) readPrimitive readPrimitive := by
  refine reader_tag fun _ tag => ?_
  split
  · exact .pure rfl fun _ _ => trivial
  · exact .throw

theorem reader_kind : Reader N Eq (fun _ _ => True) readKind readKind := by
  refine reader_tag fun _ tag => ?_
  split
  · exact .pure rfl fun _ _ => trivial
  · exact .throw

theorem size_of_fromUTF8? {bytes : List UInt8} {text : String} (h : String.fromUTF8? ⟨bytes.toArray⟩ = some text) :
    text.utf8ByteSize = bytes.length := by
  unfold String.fromUTF8? at h
  split at h <;> cases h
  rfl

theorem reader_symbol : Reader N Any Short readSymbol readSymbol := by
  refine .bindEq reader_length fun n => .bind reader_offset ?_
  rintro start _ ⟨rfl, -⟩
  refine (reader_take n).bindEq fun _ => ?_
  split
  · rename_i text htext
    refine .store (fun t => t.internText_extends text) fun t K _ hx hlen _ hn => ?_
    obtain ⟨h1, h2⟩ := internText_text t text
    have hsize : (K.text (t.internText text).1).utf8ByteSize = n :=
      (congrArg _ ((hx.text h1).trans h2)).trans ((size_of_fromUTF8? htext).trans hlen)
    exact ⟨hx.hasSymbol h1, hsize ▸ hn⟩
  · exact .throw

/-! ## Types -/

section

variable {item : Decoder α} (hi : Reader N Any P item item)
include hi

theorem reader_times (n : Nat) : Reader N Any (fun K l => l.length = n ∧ ∀ a ∈ l, P K a) (readTimes item n)
    (readTimes item n) := by
  induction n with
  | zero => exact .pure trivial fun _ _ => by simp
  | succ n ih =>
    refine hi.bind fun a _ _ => ih.bind fun l _ _ => .pure trivial fun K _ hl ha => ?_
    simpa [hl.1, ha] using hl.2

theorem reader_list : Reader N Any (fun K l => l.length < 2 ^ 32 ∧ ∀ a ∈ l, P K a) (readList item) (readList item) :=
  .bindEq reader_length fun n => (reader_times hi n).imp fun _ _ _ hl hn => ⟨hl.1 ▸ hn, hl.2⟩

theorem reader_optional : Reader N Any (fun K o => ∀ a ∈ o, P K a) (readOptional item) (readOptional item) := by
  refine .bindEq reader_flag fun _ => ?_
  split
  · exact hi.bind fun a _ _ => .pure trivial fun _ _ ha _ => by simpa using ha
  · exact .pure trivial fun _ _ _ => by simp

end

theorem reader_form {form' : Form} (n : Nat) (ho : ∀ K : TypeTable, K.Ordered form) : Reader N Any
    (fun K ty => K.AllFit n form.parts form.names form.lengths → K.Fit (n + 1) ty) (store (.form form)) (store (.form form')) := by
  refine .store (fun t => t.intern_extends form) fun t K hK hx hf => ?_
  exact hK.fit (hx.forms _ _ (t.intern_form form)) hf (ho K)

theorem reader_union {members members' : List Ty} : Reader N Any
    (fun K ty => members.length < 2 ^ 32 ∧ (∀ m ∈ members, K.Fit n m) → K.Fit (n + 1) ty) (store (.unionOf members))
    (store (.unionOf members')) := by
  exact .store (fun t => t.unionOf_extends members) fun t K hK hx hm => hK.fit_unionOf hx hm.1 hm.2

section

variable {part : Decoder Ty} (hp : Reader N Any (·.Fit n) part part)
include hp

theorem reader_parameter : Reader N Any (fun K p => K.Short p.name ∧ ∀ q ∈ p.type, K.Fit n q) (readParameter part)
    (readParameter part) :=
  .bind reader_symbol fun _ _ _ => .bind reader_flag fun _ _ _ => (reader_optional hp).bind fun _ _ _ =>
    .pure trivial fun _ _ ht _ hn => ⟨hn, ht⟩

theorem reader_signature : Reader N Any (fun K s => K.AllFit n s.parts s.names s.lengths) (readSignature part)
    (readSignature part) := by
  refine .bind reader_flag fun _ _ _ => (reader_list hp).bind fun _ _ _ => (reader_list (reader_parameter hp)).bind
    fun _ _ _ => (reader_optional hp).bind fun _ _ _ => (reader_optional hp).bind fun _ _ _ => .pure (C := Any) trivial ?_
  intro K _ _ _ _ _ _
  simp only [AllFit, SignatureOf.parts, SignatureOf.names, SignatureOf.lengths, mem_append, mem_flatMap,
    mem_map, Option.mem_toList]
  grind

theorem reader_type : Reader N Any (·.Fit (n + 1)) (readType part) (readType part) := by
  refine .bindEq reader_kind fun kind => .bindEq reader_word fun _ => ?_
  cases kind with
  | any => exact .pure trivial fun _ hK _ _ => hK.fit_leaf .any (by decide) ⟨rfl, rfl, rfl⟩ trivial
  | nil => exact .pure trivial fun _ hK _ _ => hK.fit_leaf .nil (by decide) ⟨rfl, rfl, rfl⟩ trivial
  | void => exact .pure trivial fun _ hK _ _ => hK.fit_leaf .void (by decide) ⟨rfl, rfl, rfl⟩ trivial
  | primitive =>
    refine .bindEq reader_primitive fun kind => .pure trivial fun _ hK _ _ _ => ?_
    exact hK.fit_leaf (.primitive kind) (by cases kind <;> decide) ⟨rfl, rfl, rfl⟩ trivial
  | literal =>
    refine .bindEq reader_primitive fun _ => .bind reader_symbol fun _ _ _ => .imp (reader_form n fun _ => trivial) ?_
    simp +contextual [AllFit, parts, FormOf.names, lengths]
  | array =>
    refine hp.bind fun _ _ _ => .imp (reader_form n fun _ => trivial) ?_
    simp +contextual [AllFit, parts, FormOf.names, lengths]
  | classRef | snippet =>
    refine .bind reader_symbol fun _ _ _ => .imp (reader_form n fun _ => trivial) ?_
    simp +contextual [AllFit, parts, FormOf.names, lengths]
  | aliasRef =>
    refine .bind reader_symbol fun _ _ _ => (reader_list hp).bind fun _ _ _ => hp.bind fun _ _ _ =>
      .imp (reader_form n fun _ => trivial) ?_
    simp +contextual [AllFit, parts, FormOf.names, lengths, or_imp]
  | union => exact (reader_list hp).bind fun _ _ _ => .imp reader_union fun _ _ _ h hm _ _ => h hm
  | generic =>
    refine hp.bind fun _ _ _ => (reader_list hp).bind fun _ _ _ => .imp (reader_form n fun _ => trivial) ?_
    simp +contextual [AllFit, parts, FormOf.names, lengths, or_imp]
  | function =>
    refine (reader_signature hp).bind fun main _ _ => (reader_list (reader_signature hp)).bind fun overloads _ _ =>
      .imp (reader_form n fun _ => trivial) fun K ty _ h ho hm _ _ => h ?_
    have hall : ∀ s ∈ main :: overloads, K.AllFit n s.parts s.names s.lengths := forall_mem_cons.2 ⟨hm, ho.2⟩
    exact ⟨forall_mem_flatMap.2 fun s hs => (hall s hs).1, forall_mem_flatMap.2 fun s hs => (hall s hs).2.1,
      forall_mem_cons.2 ⟨ho.1, forall_mem_flatMap.2 fun s hs => (hall s hs).2.2⟩⟩
  | results =>
    refine .bind reader_flag fun _ _ _ => (reader_list hp).bind fun _ _ _ => .imp (reader_form n fun _ => trivial) ?_
    simp +contextual [AllFit, parts, FormOf.names, lengths]
  | param =>
    refine .bind reader_symbol fun _ _ _ => .bind reader_symbol fun _ _ _ => (reader_optional hp).bind fun _ _ _ =>
      .imp (reader_form n fun _ => trivial) ?_
    simp +contextual [AllFit, parts, FormOf.names, lengths, or_imp]

end

theorem reader_below (n : Nat) : Reader N Any (·.Fit n) (readBelow n) (readBelow n) := by
  induction n with
  | zero => exact .throw
  | succ n ih => exact reader_type ih

/-! ## Whole inputs -/

/-- Bytes that were read as a type are read so in every table. With more after them they are read up to there, and
what is short of them ends too early. -/
theorem decode_delimited {bytes : List UInt8} {t : TypeTable} {ty : Ty} (h : (decode bytes t).1 = .ok ty)
    (t' : TypeTable) :
    (∀ more, more ≠ [] → (decode (bytes ++ more) t').1 = .error (.trailing more.length)) ∧
      ∀ short, short <+: bytes → short ≠ bytes →
        ∃ k ≤ short.length, (decode short t').1 = .error (.truncated k) := by
  have hdecode : decodeBy (readBelow maxDepth) bytes t = (.ok ty, (decode bytes t).2) := Prod.ext h rfl
  obtain ⟨n, hrun⟩ := decodeBy_ok_iff.1 hdecode
  unfold decode
  constructor
  · intro more hmore
    obtain ⟨-, -, -, ty', u, -, hlong⟩ := (reader_below maxDepth).ok more t' rfl hrun
    rw [hlong]
    simp [hmore]
  · rintro short ⟨more, rfl⟩ hne
    rcases hshort : (readBelow maxDepth).run ⟨short, 0, t'⟩ with ⟨e | ty', c⟩
    · rcases (reader_below maxDepth).error more t rfl hshort with ⟨k, hk, rfl⟩ | ⟨d, hlong⟩
      · exact ⟨k, by simpa using hk, rfl⟩
      · cases hlong.symm.trans hrun
    · -- the longer input would not have been taken to its end
      obtain ⟨-, -, -, _, u, -, hlong⟩ := (reader_below maxDepth).ok more t rfl hshort
      have hrest : c.rest ++ more = [] := congrArg (·.2.rest) (hlong.symm.trans hrun)
      simp_all

example : (decode (encode initial Ty.string ++ [0]) initial).1 = .error (.trailing 1) := by decide +kernel

def stringArray : List UInt8 := byte Kind.array.tag ++ word 0 ++ encode initial Ty.string

theorem decode_delimited_array : (decode stringArray initial).1 = .ok ⟨10⟩ ∧
    (decode (stringArray ++ [0, 7]) initial).1 = .error (.trailing 2) ∧
    ∃ k ≤ 5, (decode (stringArray.take 5) initial).1 = .error (.truncated k) := by
  have hread : (decode stringArray initial).1 = .ok ⟨10⟩ := by decide +kernel
  obtain ⟨hlong, hshort⟩ := decode_delimited hread initial
  exact ⟨hread, hlong [0, 7] (by simp), hshort _ ⟨_, take_append_drop 5 _⟩ (by decide +kernel)⟩

/-- What any bytes were read as is read back from its own bytes, under the same handle, and nothing is stored. -/
theorem decode_normalises {bytes : List UInt8} {t t' : TypeTable} (ht : t.WF) {ty : Ty}
    (h : decode bytes t = (.ok ty, t')) :
    ∃ t'', decode (encode t' ty) t' = (.ok ty, t'') ∧ t''.forms = t'.forms ∧ t''.symbols = t'.symbols := by
  obtain ⟨n, hrun⟩ := decodeBy_ok_iff.1 (h : decodeBy (readBelow maxDepth) bytes t = _)
  obtain ⟨hwf, -, -⟩ := decode_stored bytes ht
  rw [h] at hwf
  obtain ⟨-, -, hfit, -⟩ := (reader_below maxDepth).ok [] t rfl hrun
  obtain ⟨hstored, hdepth, hwritable⟩ := hfit t' hwf (.refl t')
  obtain ⟨ty', t'', hread, -, -, -, -, -, hsame⟩ := decode_encode hwf hwf hstored hdepth hwritable
  obtain ⟨rfl, hforms, hsymbols⟩ := hsame rfl
  exact ⟨t'', hread, hforms, hsymbols⟩

theorem decode_normalises_nested : ∃ ty t' t'', decode nestedUnion initial = (.ok ty, t') ∧
    decode (encode t' ty) t' = (.ok ty, t'') ∧ t''.forms = t'.forms ∧ t''.symbols = t'.symbols := by
  have hty : (decode nestedUnion initial).1 = .ok ⟨11⟩ := by decide +kernel
  rcases hread : decode nestedUnion initial with ⟨r, t'⟩
  rw [hread] at hty
  subst hty
  obtain ⟨t'', hagain⟩ := decode_normalises initial_wf hread
  exact ⟨⟨11⟩, t', t'', rfl, hagain⟩

end Codec

end AnnotatedLua
