import CallCommunities.Proofs.Words.Bounds
import CallCommunities.Proofs.Words.Tables

/-!
# Proofs/Words/Moving — local moving in words

Local moving again, with its numbers in words: degree sums and weights in 64 bits without a sign, worths
and gains in 128 bits with one, all wrapping around.  Every operation is that of the numbers modulo the
size of the word, so the words of a state are carried along by a visit (`visit_encode`) once the
comparisons come out as they do for the numbers: taking a degree off a sum must not borrow, and worths
must fit.  Both hold of a sound state of an admitted graph, and **local moving in words is local moving**
(`run_eq`).
-/

namespace CallCommunities

open Assignment CallGraph

/-! ## Words of 128 bits -/

/-- The word of a whole number. -/
def signed (x : ℤ) : BitVec 128 := .ofInt 128 x

/-- A word of 64 bits without a sign, as one of 128 bits with a sign. -/
def widen (x : UInt64) : BitVec 128 := .ofNat 128 x.toNat

theorem toInt_signed {x : ℤ} (h : InRange x) : (signed x).toInt = x := by
  obtain ⟨hlo, hhi⟩ := h
  rw [signed, BitVec.toInt_ofInt]
  exact Int.bmod_eq_of_le (by omega) (by omega)

theorem slt_signed {x y : ℤ} (hx : InRange x) (hy : InRange y) :
    (signed x).slt (signed y) = decide (x < y) := by
  rw [BitVec.slt_eq_decide, toInt_signed hx, toInt_signed hy]

theorem signed_inj {x y : ℤ} (hx : InRange x) (hy : InRange y) : signed x = signed y ↔ x = y := by
  rw [← BitVec.toInt_inj, toInt_signed hx, toInt_signed hy]

theorem signed_add (x y : ℤ) : signed (x + y) = signed x + signed y := BitVec.ofInt_add x y

theorem signed_mul (x y : ℤ) : signed (x * y) = signed x * signed y := BitVec.ofInt_mul x y

theorem signed_sub (x y : ℤ) : signed (x - y) = signed x - signed y := by
  rw [sub_eq_add_neg, signed_add, BitVec.sub_eq_add_neg]
  exact congrArg _ (BitVec.ofInt_neg)

theorem widen_ofNat {n : ℕ} (h : n < UInt64.size) : widen (.ofNat n) = signed n := by
  rw [widen, UInt64.toNat_ofNat_of_lt' h, signed, BitVec.ofInt_natCast]

/-! ## The machine -/

/-- What local moving carries from vertex to vertex, in words. -/
structure WordMoving where
  assignment : Assignment
  sums : Array UInt64
  moves : ℕ
  gain : BitVec 128

namespace WordMoving

/-- The start from a partition, its degree sums added up in words. -/
def start (view : LinkView) (a : Assignment) : WordMoving :=
  ⟨a, ((List.range a.size).map (post (a.communityLedger view.degree))).toArray, 0, 0⟩

/-- Adds to the weight counted for a community. -/
def tally (c : ℕ) (w : UInt64) : List (ℕ × UInt64) → List (ℕ × UInt64)
  | [] => [(c, w)]
  | (d, x) :: rest => if d = c then (d, x + w) :: rest else (d, x) :: tally c w rest

/-- The weight between `v` and every community around it. -/
def contacts (view : LinkView) (a : Assignment) (v : ℕ) : List (ℕ × UInt64) :=
  (view.linksOf v).foldl (fun near (u, w) => tally (a.labelOf u) (.ofNat w) near) [(a.labelOf v, 0)]

/-- What it is worth to a vertex to be in a community. -/
def worth (view : LinkView) (degree weight sum : UInt64) : BitVec 128 :=
  2 * widen (.ofNat view.total) * widen weight - widen degree * widen sum

/-- The better of two communities with their worths. -/
def prefer (view : LinkView) (best candidate : ℕ × BitVec 128) : ℕ × BitVec 128 :=
  if best.2.slt candidate.2 ∨ (candidate.2 = best.2 ∧ view.rank candidate.1 < view.rank best.1) then
    candidate
  else best

/-- The visit of one vertex: its degree is taken off the sum of its community, and added to that of
the community where it ends up. -/
def visit (view : LinkView) (s : WordMoving) (v : ℕ) : WordMoving :=
  let own := s.assignment.labelOf v
  let degree := UInt64.ofNat (view.degree v)
  let others := s.sums.modify own (· - degree)
  let offers := (contacts view s.assignment v).map fun (c, weight) =>
    (c, worth view degree weight (others.getD c 0))
  let stay := (offers.lookup own).getD 0
  let best := offers.foldl (prefer view) (own, stay)
  if stay.slt best.2 then
    { assignment := s.assignment.relabel v best.1
      sums := others.modify best.1 (· + degree)
      moves := s.moves + 1
      gain := s.gain + (best.2 - stay) }
  else { s with sums := others.modify own (· + degree) }

/-- The visit of every vertex, in index order. -/
def sweep (view : LinkView) (s : WordMoving) : WordMoving := view.vertexList.foldl (visit view) s

/-- Sweeps until one moves nothing, but at most `ceiling` of them; the gain is read off its word. -/
def sweepUpTo (view : LinkView) : ℕ → WordMoving → LocalMoving
  | 0, s => ⟨s.assignment, s.moves, 0, false, s.gain.toInt⟩
  | ceiling + 1, s =>
    let next := s.sweep view
    if next.moves = s.moves then ⟨next.assignment, next.moves, 1, true, next.gain.toInt⟩
    else
      let rest := sweepUpTo view ceiling next
      { rest with sweeps := rest.sweeps + 1 }

/-- Local moving from a partition, in words. -/
def run (view : LinkView) (a : Assignment) (maxSweeps : ℕ) : LocalMoving :=
  if UInt64.ofNat view.total = 0 then ⟨a, 0, 0, true, 0⟩
  else sweepUpTo view maxSweeps (.start view a)

/-! ## The words of a state -/

/-- A number kept for a community, in a word. -/
def pack (p : ℕ × ℕ) : ℕ × UInt64 := (p.1, .ofNat p.2)

/-- An offer, in a word. -/
def packOffer (p : ℕ × ℤ) : ℕ × BitVec 128 := (p.1, signed p.2)

/-- The words of a state. -/
def encode (s : Moving) : WordMoving :=
  ⟨s.assignment, s.sums.map .ofNat, s.moves, signed s.gain⟩

variable {g : CallGraph} {a : Assignment} {s : Moving} {v c k : ℕ}

theorem tally_pack (c w : ℕ) : ∀ l : List (ℕ × ℕ),
    tally c (.ofNat w) (l.map pack) = (Moving.tally c w l).map pack
  | [] => rfl
  | (d, x) :: rest => by
    rw [List.map_cons, pack, tally, Moving.tally]
    split
    · rw [List.map_cons, pack, UInt64.ofNat_add]
    · rw [tally_pack c w rest, List.map_cons, pack]

theorem foldl_tally_pack (f : ℕ → ℕ) : ∀ links near : List (ℕ × ℕ),
    links.foldl (fun near p => tally (f p.1) (.ofNat p.2) near) (near.map pack)
      = (links.foldl (fun near p => Moving.tally (f p.1) p.2 near) near).map pack
  | [], _ => rfl
  | p :: links, near => by
    rw [List.foldl_cons, tally_pack, foldl_tally_pack f links, List.foldl_cons]

/-- The weights counted around a vertex, in words. -/
theorem contacts_eq (view : LinkView) (a : Assignment) (v : ℕ) :
    contacts view a v = (Moving.contacts view a v).map pack :=
  foldl_tally_pack a.labelOf (view.linksOf v) [(a.labelOf v, 0)]

theorem worth_ofNat {view : LinkView} {degree weight sum : ℕ} (hm : view.total < UInt64.size)
    (hd : degree < UInt64.size) (hw : weight < UInt64.size) (hs : sum < UInt64.size) :
    worth view (.ofNat degree) (.ofNat weight) (.ofNat sum)
      = signed (Moving.worth view degree weight sum) := by
  rw [worth, widen_ofNat hm, widen_ofNat hd, widen_ofNat hw, widen_ofNat hs, Moving.worth, signed_sub,
    signed_mul, signed_mul, signed_mul]
  rfl

theorem foldl_prefer (view : LinkView) : ∀ (l : List (ℕ × ℤ)) (p : ℕ × ℤ), InRange p.2 →
    (∀ q ∈ l, InRange q.2) → (l.map packOffer).foldl (prefer view) (packOffer p)
      = packOffer (l.foldl (Moving.prefer view) p)
  | [], _, _, _ => rfl
  | q :: l, p, hp, hl => by
    have hq := hl q (by simp)
    have hbetter : ((signed p.2).slt (signed q.2) = true
          ∨ signed q.2 = signed p.2 ∧ view.rank q.1 < view.rank p.1)
        ↔ p.2 < q.2 ∨ q.2 = p.2 ∧ view.rank q.1 < view.rank p.1 := by
      rw [slt_signed hp hq, signed_inj hq hp, decide_eq_true_eq]
    have hstep : prefer view (packOffer p) (packOffer q) = packOffer (Moving.prefer view p q) :=
      (if_congr hbetter rfl rfl).trans (apply_ite packOffer _ q p).symm
    have hbest : InRange (Moving.prefer view p q).2 := by
      rcases List.mem_pair.mp (Moving.prefer_spec view p q).1 with h | h <;> rwa [h]
    rw [List.map_cons, List.foldl_cons, hstep, List.foldl_cons]
    exact foldl_prefer view l _ hbest fun r hr => hl r (List.mem_cons_of_mem _ hr)

theorem map_modify {α β : Type} {p : α → β} {f : α → α} {f' : β → β} {t : Array α} {i : ℕ}
    (h : ∀ x, t[i]? = some x → p (f x) = f' (p x)) :
    (t.modify i f).map p = (t.map p).modify i f' := by
  refine Array.ext (by simp) fun j hj hj' => ?_
  rw [Array.getElem_map, Array.getElem_modify, Array.getElem_modify, Array.getElem_map]
  split
  · rename_i hij
    subst hij
    exact h _ (Array.getElem?_eq_getElem _)
  · rfl

theorem getD_map_ofNat (t : Array ℕ) (i : ℕ) :
    (t.map UInt64.ofNat).getD i 0 = .ofNat (t.getD i 0) := by
  rw [Array.getD_eq_getD_getElem?, Array.getD_eq_getD_getElem?, Array.getElem?_map]
  cases t[i]? <;> rfl

/-- Adding back what was taken off restores the sums. -/
theorem modify_sub_add (t : Array UInt64) (i : ℕ) (d : UInt64) :
    (t.modify i (· - d)).modify i (· + d) = t := by
  refine Array.ext (by simp) fun j hj hj' => ?_
  rw [Array.getElem_modify, Array.getElem_modify]
  split
  · exact UInt64.sub_add_cancel _ d
  · rfl

/-- Adding to a sum carries over to its word, whether or not it fits. -/
theorem modify_add_ofNat (t : Array ℕ) (i d : ℕ) :
    (t.map UInt64.ofNat).modify i (· + .ofNat d) = (t.modify i (· + d)).map UInt64.ofNat := by
  refine Eq.symm (map_modify fun x _ => ?_)
  exact UInt64.ofNat_add x d

theorem lookup_map_packOffer (g : CallGraph) (a : Assignment) (v : ℕ) :
    ((Moving.offers g a v).map packOffer).lookup (a.labelOf v)
      = some (signed (g.pull a v (a.labelOf v))) := by
  rw [Moving.offers, List.map_map]
  exact Moving.lookup_map_pair _ (Moving.mem_contacts.mpr (.inl rfl))

theorem start_eq (view : LinkView) (a : Assignment) :
    start view a = encode (Moving.start view a) := by
  have hsums : ((List.range a.size).map (post (a.communityLedger view.degree))).toArray
      = (a.degreeSums view.degree).toArray.map .ofNat := by
    rw [List.map_toArray, degreeSums, List.map_map]
    refine congrArg List.toArray (List.map_congr_left fun c _ => ?_)
    rw [post_eq, owed_communityLedger, Function.comp_apply]
  rw [start, encode, Moving.start, hsums]
  rfl

/-! ## The machine follows the numbers -/

section Admitted

variable (hm : g.totalWeight ≤ maxTotalWeight)
include hm

/-- A sum of degrees fits into a word. -/
theorem lt_size_of_le {x : ℕ} (hx : x ≤ 2 * g.totalWeight) : x < UInt64.size :=
  hx.trans_lt (two_mul_lt_size hm)

omit hm in
/-- Taking the degree of `v` off the sum of its community does not borrow. -/
theorem others_eq (h : s.Sound g) (hv : v < g.vertexCount) :
    (s.sums.map .ofNat).modify (s.assignment.labelOf v) (· - .ofNat (g.degree v))
      = (s.sums.modify (s.assignment.labelOf v) (· - g.degree v)).map UInt64.ofNat := by
  refine Eq.symm (map_modify fun x hx => ?_)
  have hown := h.valid.labelOf_lt hv
  have hsum := h.getD_sums _ hown
  rw [Array.getD_eq_getD_getElem?, hx, Option.getD_some, degreeSum_eq h.valid hv, if_pos rfl] at hsum
  exact UInt64.ofNat_sub (hsum ▸ Nat.le_add_left _ _)

/-- The offers of a visit, in words. -/
theorem offers_eq (h : s.Sound g) (hv : v < g.vertexCount) :
    (contacts g.linkView s.assignment v).map (fun p => (p.1, worth g.linkView (.ofNat (g.degree v)) p.2
        (((s.sums.modify (s.assignment.labelOf v) (· - g.degree v)).map UInt64.ofNat).getD p.1 0)))
      = (Moving.offers g s.assignment v).map packOffer := by
  rw [contacts_eq, ← h.offers_eq hv, List.map_map, List.map_map]
  refine List.map_congr_left fun ⟨c, w⟩ hp => ?_
  have hc : c < g.vertexCount :=
    (Moving.mem_contacts.mp (List.mem_map.mpr ⟨_, hp, rfl⟩)).lt h.valid hv
  have hdegrees := degree_add_otherDegrees_le (a := s.assignment) (c := c) hv
  have hreach := reach_le (a := s.assignment) (c := c) hv
  have hget : ((s.sums.modify (s.assignment.labelOf v) (· - g.degree v)).map UInt64.ofNat).getD c 0
      = .ofNat (g.otherDegrees s.assignment v c) := by
    rw [getD_map_ofNat, h.getD_others hv hc]
  rw [← Moving.eq_reach_of_mem_contacts hp] at hreach
  simp only [Function.comp_apply, pack, packOffer]
  rw [hget, h.getD_others hv hc, worth_ofNat]
  · exact lt_size_of_le hm (by rw [linkView_total]; omega)
  · exact lt_size_of_le hm (by omega)
  · exact lt_size_of_le hm (by omega)
  · exact lt_size_of_le hm (by omega)

/-- The best of the offers in words is the best community. -/
theorem exists_best (ha : a.Valid g.vertexCount) (hv : v < g.vertexCount) :
    ∃ c, Moving.Best g a v c ∧ ((Moving.offers g a v).map packOffer).foldl (prefer g.linkView)
      (a.labelOf v, signed (g.pull a v (a.labelOf v))) = (c, signed (g.pull a v c)) := by
  obtain ⟨c, hc, hfold⟩ := Moving.exists_best ha hv
  refine ⟨c, hc, (foldl_prefer g.linkView _ (_, _) (inRange_pull hm hv) fun q hq => ?_).trans
    (congrArg packOffer hfold)⟩
  obtain ⟨e, -, rfl⟩ := Moving.mem_offers.mp hq
  exact inRange_pull hm hv

/-- **A visit in words is a visit.** -/
theorem visit_encode (h : s.Sound g) (hv : v < g.vertexCount) :
    visit g.linkView (encode s) v = encode (Moving.visit g.linkView s v) := by
  -- Both visits choose the best community, and there is only one.
  obtain ⟨c, hc, hbest⟩ := exists_best hm h.valid hv
  obtain ⟨d, hd, hvisit⟩ := h.visit_eq hv
  obtain rfl := hd.unique hc h.valid hv
  rw [hvisit, visit]
  simp only [encode, linkView_degree, others_eq h hv, offers_eq hm h hv, lookup_map_packOffer,
    Option.getD_some, hbest, slt_signed (inRange_pull hm hv) (inRange_pull hm hv), decide_eq_true_eq]
  by_cases hlt : g.pull s.assignment v (s.assignment.labelOf v) < g.pull s.assignment v d
  · rw [if_pos hlt, if_pos hlt, modify_add_ofNat]
    simp only [Moving.moved, signed_add, signed_sub]
  · rw [if_neg hlt, if_neg hlt, ← others_eq h hv, modify_sub_add]

theorem foldl_visit_encode : ∀ {l : List ℕ} {s : Moving}, s.Sound g →
    (∀ v ∈ l, v < g.vertexCount) →
    l.foldl (visit g.linkView) (encode s) = encode (l.foldl (Moving.visit g.linkView) s)
  | [], _, _, _ => rfl
  | v :: l, s, h, hl => by
    have hv := hl v (by simp)
    rw [List.foldl_cons, visit_encode hm h hv, List.foldl_cons]
    exact foldl_visit_encode (h.visit hv).1 fun u hu => hl u (List.mem_cons_of_mem _ hu)

/-- The gain is read off its word. -/
theorem toInt_gain_encode (h : Moving.Underway g a s) (ha : a.Valid g.vertexCount) :
    (encode s).gain.toInt = s.gain := toInt_signed (h.inRange_gain ha hm)

theorem sweepUpTo_encode (ha : a.Valid g.vertexCount) : ∀ (k : ℕ) {s : Moving},
    Moving.Underway g a s → sweepUpTo g.linkView k (encode s) = LocalMoving.sweepUpTo g.linkView k s
  | 0, s, h => by
    rw [sweepUpTo, LocalMoving.sweepUpTo, toInt_gain_encode hm h ha]
    rfl
  | k + 1, s, h => by
    have hsweep : sweep g.linkView (encode s) = encode (Moving.sweep g.linkView s) :=
      foldl_visit_encode hm h.sound (Moving.lt_of_mem_vertexList g)
    have hnext : Moving.Underway g a (Moving.sweep g.linkView s) :=
      h.foldl_visit (Moving.lt_of_mem_vertexList g)
    rw [sweepUpTo, LocalMoving.sweepUpTo, hsweep, toInt_gain_encode hm hnext ha,
      sweepUpTo_encode ha k hnext]
    rfl

/-- **Local moving in words is local moving.** -/
theorem run_eq (ha : a.Valid g.vertexCount) (k : ℕ) :
    run g.linkView a k = LocalMoving.run g.linkView a k := by
  have hzero : UInt64.ofNat g.linkView.total = 0 ↔ g.linkView.total = 0 := by
    have htotal : g.linkView.total < UInt64.size := lt_size_of_le hm (by rw [linkView_total]; omega)
    rw [← UInt64.toNat_inj, UInt64.toNat_ofNat_of_lt' htotal]
    rfl
  rw [run, LocalMoving.run, start_eq, sweepUpTo_encode hm ha k (Moving.underway_start ha)]
  exact if_congr hzero rfl rfl

end Admitted

end WordMoving

end CallCommunities
