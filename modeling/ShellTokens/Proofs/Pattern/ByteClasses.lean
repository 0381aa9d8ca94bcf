import ShellTokens.Proofs.Pattern.Derivative

/-!
# Classes of bytes

A pattern does not tell the bytes of a class apart if each of the sets at which its words can begin
contains all of them or none. Then what is left of the pattern is the same behind all bytes of the
class, and a look at one of them is enough.
-/

namespace ShellTokens

namespace ByteSet

variable {set cls : ByteSet} {b c : UInt8}

/-- Whether the set contains all bytes of the class or none of them. -/
def uniformOn (set cls : ByteSet) : Bool :=
  cls.compl ∪ set == full || cls.compl ∪ set.compl == full

theorem contains_of_cup_eq_full (h : cls.compl ∪ set = full) (hb : cls.contains b = true) :
    set.contains b = true := by
  have hfull : (cls.compl ∪ set).contains b = true := by rw [h, contains_full]
  simpa [hb] using hfull

theorem contains_eq_of_uniformOn (h : set.uniformOn cls = true) (hb : cls.contains b = true)
    (hc : cls.contains c = true) : set.contains b = set.contains c := by
  rw [uniformOn, Bool.or_eq_true, beq_iff_eq, beq_iff_eq] at h
  rcases h with hall | hnone
  · rw [contains_of_cup_eq_full hall hb, contains_of_cup_eq_full hall hc]
  · have hnotb := contains_of_cup_eq_full hnone hb
    have hnotc := contains_of_cup_eq_full hnone hc
    rw [contains_compl, Bool.not_eq_true'] at hnotb hnotc
    rw [hnotb, hnotc]

end ByteSet

namespace Pattern

variable {p : Pattern} {parts : List Pattern} {cls : ByteSet} {b c : UInt8}

mutual

/-- Whether the pattern does not tell the bytes of the class apart where its words begin. -/
def uniformOn (cls : ByteSet) : Pattern → Bool
  | literal [] => true
  | literal (a :: _) => ((∅ : ByteSet).insert a).uniformOn cls
  | oneOf set => set.uniformOn cls
  | run r => r.set.uniformOn cls
  | seq parts => uniformOnSeq cls parts
  | alt choices => uniformOnAlt cls choices
  | times inner _ _ => uniformOn cls inner

/-- The same for the parts up to the first one that cannot be empty. -/
def uniformOnSeq (cls : ByteSet) : List Pattern → Bool
  | [] => true
  | p :: parts => uniformOn cls p && (!p.nullable || uniformOnSeq cls parts)

def uniformOnAlt (cls : ByteSet) : List Pattern → Bool
  | [] => true
  | p :: choices => uniformOn cls p && uniformOnAlt cls choices

end

theorem uniformOnAlt_eq_all (choices : List Pattern) :
    uniformOnAlt cls choices = choices.all (uniformOn cls) := by
  induction choices with
  | nil => rfl
  | cons p choices ih => rw [uniformOnAlt, ih, List.all_cons]

theorem afterSeq_eq_of_uniformOn (h : uniformOnSeq cls parts = true)
    (hparts : ∀ p ∈ parts, p.uniformOn cls = true → p.after b = p.after c) :
    afterSeq b parts = afterSeq c parts := by
  induction parts with
  | nil => rfl
  | cons p parts ih =>
    rw [uniformOnSeq, Bool.and_eq_true, Bool.or_eq_true, Bool.not_eq_true'] at h
    obtain ⟨hp, hparts⟩ := List.forall_mem_cons.1 hparts
    rw [afterSeq, afterSeq, hp h.1]
    by_cases hnil : p.nullable = true
    · have hrest := h.2.resolve_left (by simp [hnil])
      rw [if_pos hnil, if_pos hnil, ih hrest hparts]
    · rw [if_neg hnil, if_neg hnil]

/-- What is left of the pattern is the same behind all bytes of the class. -/
theorem after_eq_of_uniformOn (h : p.uniformOn cls = true) (hb : cls.contains b = true)
    (hc : cls.contains c = true) : p.after b = p.after c := by
  induction p with
  | literal bytes =>
    cases bytes with
    | nil => rfl
    | cons a bytes =>
      have heq := ByteSet.contains_eq_of_uniformOn h hb hc
      rw [Bool.eq_iff_iff] at heq
      have hbyte : b = a ↔ c = a := by simpa using heq
      rw [after, after, if_congr (eq_comm.trans (hbyte.trans eq_comm)) rfl rfl]
  | oneOf set => rw [after, after, ByteSet.contains_eq_of_uniformOn h hb hc]
  | run r => rw [after, after, ByteSet.contains_eq_of_uniformOn h hb hc]
  | seq parts ih => rw [after, after, afterSeq_eq_of_uniformOn h ih]
  | alt choices ih =>
    rw [uniformOn, uniformOnAlt_eq_all, List.all_eq_true] at h
    rw [after, after, afterAlt_eq_map, afterAlt_eq_map]
    exact congrArg alt (List.map_congr_left fun p hp => ih p hp (h p hp))
  | times inner min max ih =>
    by_cases hzero : max = some 0
    · subst hzero
      rfl
    · rw [after_times hzero, after_times hzero, ih h]

end Pattern

end ShellTokens
