import GoEthereum.Lib.BigEndian

-- Records of a head and a tail. A part of fixed size stands in the head itself. For any other part,
-- which is in the tail, the head has its distance from the start of the record.

namespace HeadTail

inductive Part
  | inline (data : Bytes)
  | away   (data : Bytes)

namespace Part

variable (width : Nat)

def headSize : Part → Nat
  | inline data => data.length
  | away _      => width

def tail : Part → Bytes
  | inline _  => []
  | away data => data

end Part

section

variable (width : Nat) (word : Nat → Bytes)

def headSize (ps : List Part) : Nat :=
  (ps.map (Part.headSize width)).sum

def tails (ps : List Part) : Bytes :=
  ps.flatMap Part.tail

-- The head, where the tails of the parts begin at `start`.
def heads : Nat → List Part → Bytes
  | _,     []                => []
  | start, .inline data :: ps => data ++ heads start ps
  | start, .away data :: ps   => word start ++ heads (start + data.length) ps

structure Laid (ps : List Part) (data : Bytes) : Prop where
  tails  : data.drop (headSize width ps) = tails ps
  inline : ∀ l b r, ps = l ++ .inline b :: r → b <+: data.drop (headSize width l)
  away   : ∀ l b r, ps = l ++ .away b :: r →
    word (headSize width ps + (HeadTail.tails l).length) <+: data.drop (headSize width l)

end

variable {width start start' : Nat} {word : Nat → Bytes} {p : Part} {ps l r : List Part}
variable {data : Bytes}

@[simp]
theorem headSize_cons : headSize width (p :: ps) = p.headSize width + headSize width ps := rfl

@[simp]
theorem headSize_append : headSize width (l ++ r) = headSize width l + headSize width r := by
  simp [headSize]

@[simp]
theorem tails_nil : tails [] = [] := rfl

@[simp]
theorem tails_cons : tails (p :: ps) = p.tail ++ tails ps := rfl

@[simp]
theorem tails_append : tails (l ++ r) = tails l ++ tails r := by
  simp [tails]

-- The head of one part, and where the tails of the parts after it begin.

def Part.head (word : Nat → Bytes) (start : Nat) : Part → Bytes
  | .inline data => data
  | .away _      => word start

theorem heads_cons :
    heads word start (p :: ps) = p.head word start ++ heads word (start + p.tail.length) ps := by
  cases p <;> rfl

theorem heads_append :
    heads word start (l ++ r) = heads word start l ++ heads word (start + (tails l).length) r := by
  induction l generalizing start
  case nil => rfl
  case cons p l hi =>
    rw [List.cons_append, heads_cons, heads_cons, hi, List.append_assoc, tails_cons,
      List.length_append, Nat.add_assoc]

variable (hw : ∀ n, (word n).length = width)

include hw

theorem Part.length_head : (p.head word start).length = p.headSize width := by
  cases p
  case inline => rfl
  case away   => exact hw _

theorem length_heads : (heads word start ps).length = headSize width ps := by
  induction ps generalizing start
  case nil => rfl
  case cons p ps hi => rw [heads_cons, List.length_append, Part.length_head hw, hi, headSize_cons]

-- The parts up to some place are given, and the rest of the record is read from there.
theorem Laid.drop_eq (h : Laid width word ps data) (hps : ps = l ++ r) :
    data.drop (headSize width l) =
      heads word (headSize width ps + (HeadTail.tails l).length) r ++ HeadTail.tails ps := by
  induction r generalizing l
  case nil =>
    rw [List.append_nil] at hps
    rw [← hps, h.tails]
    rfl
  case cons p r hi =>
    have hn := @hi (l ++ [p]) (by rw [hps, List.append_assoc]; rfl)
    have hp : p.head word (headSize width ps + (HeadTail.tails l).length) <+:
        data.drop (headSize width l) := by
      cases p
      case inline b => exact h.inline l b r hps
      case away b   => exact h.away l b r hps
    obtain ⟨t, ht⟩ := hp
    have hd : data.drop (headSize width (l ++ [p])) = t := by
      rw [headSize_append, ← List.drop_drop, ← ht]
      exact List.drop_left' (by rw [Part.length_head hw]; simp [headSize])
    rw [← ht, heads_cons, ← hd, hn]
    simp [Nat.add_assoc]

theorem laid_iff :
    Laid width word ps data ↔ data = heads word (headSize width ps) ps ++ tails ps := by
  constructor
  case mp =>
    intro h
    exact h.drop_eq hw (List.nil_append ps).symm
  case mpr =>
    intro h
    have hd : ∀ l p r, ps = l ++ p :: r →
        p.head word (headSize width ps + (tails l).length) <+: data.drop (headSize width l) := by
      intro l p r hps
      have hh := congrArg (heads word (headSize width ps)) hps
      rw [h, hh, heads_append, heads_cons, List.append_assoc,
        List.drop_left' (length_heads hw), List.append_assoc]
      exact List.prefix_append _ _
    constructor
    case tails  => rw [h, List.drop_left' (length_heads hw)]
    case inline => exact fun l b r => hd l (.inline b) r
    case away   => exact fun l b r => hd l (.away b) r

-- The start shows in the head as soon as there is a part in the tail.
theorem heads_eq_iff {bound : Nat} (hi : ∀ m < bound, ∀ n < bound, word m = word n → m = n)
    (hb : start + (tails ps).length < bound) (hb' : start' + (tails ps).length < bound) :
    heads word start ps = heads word start' ps ↔
      (∀ b, .away b ∉ ps) ∨ start = start' := by
  induction ps generalizing start start'
  case nil => simp [heads]
  case cons p ps ih =>
    cases p
    case inline b =>
      rw [heads, heads, List.append_right_inj, ih (by simpa [Part.tail] using hb)
        (by simpa [Part.tail] using hb')]
      simp
    case away b =>
      have hne : ¬ ∀ c, .away c ∉ Part.away b :: ps := fun h => h b (List.mem_cons_self ..)
      constructor
      case mp =>
        intro h
        exact .inr (hi _ (by omega) _ (by omega)
          (List.append_inj h (by rw [hw, hw])).left)
      case mpr =>
        rintro (h | rfl)
        · exact absurd h hne
        · rfl

end HeadTail
