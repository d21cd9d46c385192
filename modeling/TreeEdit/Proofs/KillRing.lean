import Mathlib.Data.List.DropRight
import Mathlib.Data.List.SplitBy
import TreeEdit.KillRing
/-!
# The kill ring as a window on its history

What was ever deleted or copied, without a bound on the number of entries, is `groups`:
the history is cut into maximal runs of deletions, and everything else stands alone. A run
of deletions is one entry and a copy is one entry. The definition looks at the whole
history and knows nothing of the ring.

`entries_run` says that the ring shows the newest of these groups, as many as it has room
for. The argument goes over the history from its start: the ring recalls that the last
operation was a deletion exactly if the history ends with one (`Mirrors`), and then the
newest entry is the group that is still growing, which is never the one that is dropped.

Where a history is not known from its start, `Grown` follows the newest entry as long as
deletions join it, and `Sealed` the entries that none can join any more.
-/

namespace TreeEdit

namespace KillRing

/-! ## Histories -/

inductive Operation where
  | kill (t : Text) (d : Direction)
  | copy (t : Text)
  | breakSequence
deriving DecidableEq, Repr

def step (r : KillRing) : Operation → KillRing
  | .kill t d => r.kill t d
  | .copy t => r.copy t
  | .breakSequence => r.breakSequence

def run (r : KillRing) (ops : List Operation) : KillRing := ops.foldl step r

theorem run_concat (r : KillRing) (ops : List Operation) (o : Operation) :
    r.run (ops ++ [o]) = (r.run ops).step o := by
  simp [run]

namespace Operation

def isKill : Operation → Bool
  | kill _ _ => true
  | _ => false

/-- The text of a deletion in the direction `d`. -/
def killed? (d : Direction) : Operation → Option Text
  | kill t d' => if d' = d then some t else none
  | _ => none

/-- Two deletions in a row, which share an entry. -/
def joins (a b : Operation) : Bool := a.isKill && b.isKill

end Operation

/-- The texts that were deleted in the direction `d`, in the order of their arrival. -/
def killed (d : Direction) (ops : List Operation) : List Text := ops.filterMap (Operation.killed? d)

/-- What a run of deletions took: the texts from before point, the last one first, and then the
texts from behind point. -/
def groupText (ops : List Operation) : Text :=
  (killed .backward ops).reverse.flatten ++ (killed .forward ops).flatten

/-- The entry that a piece of a history leaves: a copy, a break, or a run of deletions. -/
def group? : List Operation → Option Text
  | [.copy t] => some t
  | [.breakSequence] => none
  | kills => some (groupText kills)

/-- All groups of a history, the newest first. -/
def groups (ops : List Operation) : List Text :=
  ((ops.splitBy Operation.joins).filterMap group?).reverse

/-! ## Groups of a longer history -/

/-- Two histories that do not meet in deletions have the groups of both. -/
theorem groups_append {l m : List Operation}
    (h : ∀ a ∈ l.getLast?, ∀ b ∈ m.head?, a.joins b = false) :
    groups (l ++ m) = groups m ++ groups l := by
  rw [groups, List.splitBy_append h, List.filterMap_append, List.reverse_append]
  rfl

/-- A copy is a group of its own, whatever comes before or behind it. -/
theorem groups_copy (pre post : List Operation) (t : Text) :
    groups (pre ++ .copy t :: post) = groups post ++ t :: groups pre := by
  have hpost : groups (.copy t :: post) = groups post ++ [t] :=
    groups_append (l := [.copy t]) (by simp [Operation.joins, Operation.isKill])
  rw [groups_append (by simp [Operation.joins, Operation.isKill]), hpost, List.append_assoc]
  rfl

theorem groups_breakSequence (ops : List Operation) :
    groups (ops ++ [.breakSequence]) = groups ops := by
  rw [groups_append (by simp [Operation.joins, Operation.isKill])]
  rfl

/-- Deletions in a row are one group. -/
theorem groups_kills {ks : List Operation} (hn : ks ≠ []) (hk : ∀ o ∈ ks, o.isKill = true) :
    groups ks = [groupText ks] := by
  have hc : ks.IsChain fun a b => a.joins b = true :=
    (List.pairwise_of_forall_mem_list fun a ha b hb => by
      simp [Operation.joins, hk a ha, hk b hb]).isChain
  have hg : group? ks = some (groupText ks) := by
    unfold group?
    split
    · simp [Operation.isKill] at hk
    · simp [Operation.isKill] at hk
    · rfl
  rw [groups, List.splitBy_of_isChain hn hc]
  simp [hg]

/-- The text of a run that goes on is joined as the direction says. -/
theorem groupText_concat (ks : List Operation) (t : Text) (d : Direction) :
    groupText (ks ++ [.kill t d]) = d.join (groupText ks) t := by
  cases d <;> simp [groupText, killed, Operation.killed?, Direction.join]

/-- A history is one that does not end with a deletion, followed by deletions. -/
theorem exists_kills (ops : List Operation) :
    ∃ pre ks, ops = pre ++ ks ∧ (∀ a ∈ pre.getLast?, a.isKill = false) ∧
      ∀ o ∈ ks, o.isKill = true := by
  refine ⟨ops.rdropWhile Operation.isKill, ops.rtakeWhile Operation.isKill, ?_, ?_, ?_⟩
  · exact List.rdropWhile_append_rtakeWhile.symm
  · intro a ha
    obtain ⟨hn, rfl⟩ := List.mem_getLast?_eq_getLast ha
    simpa using List.rdropWhile_last_not Operation.isKill ops hn
  · intro o ho
    exact List.mem_rtakeWhile_imp ho

/-- The deletions that a history ends with are its newest group. -/
theorem groups_append_kills {pre ks : List Operation} (hp : ∀ a ∈ pre.getLast?, a.isKill = false)
    (hn : ks ≠ []) (hk : ∀ o ∈ ks, o.isKill = true) :
    groups (pre ++ ks) = groupText ks :: groups pre := by
  rw [groups_append fun a ha b _ => by simp [Operation.joins, hp a ha], groups_kills hn hk]
  rfl

/-- A deletion is a new group, unless one came right before it. -/
theorem groups_kill_of_other {ops : List Operation} (h : ∀ a ∈ ops.getLast?, a.isKill = false)
    (t : Text) (d : Direction) : groups (ops ++ [.kill t d]) = t :: groups ops := by
  rw [groups_append_kills h (by simp) (by simp [Operation.isKill])]
  cases d <;> simp [groupText, killed, Operation.killed?]

/-- A deletion right behind another joins its group. -/
theorem groups_kill_of_kill {ops : List Operation} {o : Operation} (ho : o ∈ ops.getLast?)
    (hk : o.isKill = true) (t : Text) (d : Direction) :
    ∃ g gs, groups ops = g :: gs ∧ groups (ops ++ [.kill t d]) = d.join g t :: gs := by
  obtain ⟨pre, ks, rfl, hpre, hks⟩ := exists_kills ops
  have hn : ks ≠ [] := by
    rintro rfl
    rw [List.append_nil] at ho
    simp [hpre o ho] at hk
  refine ⟨groupText ks, groups pre, groups_append_kills hpre hn hks, ?_⟩
  rw [List.append_assoc, groups_append_kills hpre (by simp), groupText_concat]
  simpa [or_imp, forall_and, Operation.isKill] using hks

/-! ## The ring -/

/-- Pushing onto the newest entries of a list gives the newest entries of the longer list. -/
theorem entries_push {r : KillRing} {l : List Text} (hc : 0 < r.capacity)
    (h : r.entries = l.take r.capacity) (t : Text) :
    (r.push t).entries = (t :: l).take r.capacity := by
  obtain ⟨n, hn⟩ := Nat.exists_eq_add_one_of_ne_zero (Nat.ne_of_gt hc)
  simp only [push, h]
  rw [hn, List.take_succ_cons]
  by_cases hl : n + 1 ≤ l.length
  · -- The ring is full.
    have hf : (l.take (n + 1)).length = n + 1 := by
      rw [List.length_take]
      exact Nat.min_eq_left hl
    rw [if_pos hf, List.dropLast_eq_take, hf, List.take_take]
    simp
  · rw [if_neg (by simp only [List.length_take]; omega), List.take_of_length_le (by omega),
      List.take_of_length_le (by omega)]

/-- The ring shows the newest groups of the history, and recalls whether it ends with a deletion. -/
structure Mirrors (c : Nat) (ops : List Operation) (r : KillRing) : Prop where
  capacity : r.capacity = max c 1
  entries : r.entries = (groups ops).take (max c 1)
  latest : r.latest = some .kill ↔ ∃ o ∈ ops.getLast?, o.isKill = true

namespace Mirrors

variable {c : Nat} {ops : List Operation} {r : KillRing}

theorem push (h : Mirrors c ops r) (t : Text) :
    (r.push t).entries = (t :: groups ops).take (max c 1) := by
  have he := h.entries
  rw [← h.capacity] at he ⊢
  refine entries_push ?_ he t
  rw [h.capacity]
  exact Nat.lt_of_lt_of_le Nat.zero_lt_one (Nat.le_max_right c 1)

/-- A deletion joins the newest entry if the history ends with a deletion, and else is pushed. -/
theorem kill (h : Mirrors c ops r) (t : Text) (d : Direction) :
    (r.kill t d).entries = (groups (ops ++ [.kill t d])).take (max c 1) := by
  obtain ⟨n, hn⟩ : ∃ n, max c 1 = n + 1 := Nat.exists_eq_add_one_of_ne_zero (by omega)
  by_cases hl : r.latest = some .kill
  · obtain ⟨o, ho, hk⟩ := h.latest.1 hl
    obtain ⟨g, gs, hg, hg'⟩ := groups_kill_of_kill ho hk t d
    -- There is room for one group at least, so the one that grows is in the ring.
    have he : r.entries = g :: gs.take n := by rw [h.entries, hg, hn, List.take_succ_cons]
    rw [hg', hn, List.take_succ_cons]
    simp [KillRing.kill, hl, he]
  · have ho : ∀ a ∈ ops.getLast?, a.isKill = false := by
      intro a ha
      have hne := fun hk => hl (h.latest.2 ⟨a, ha, hk⟩)
      simpa using hne
    rw [groups_kill_of_other ho, ← h.push t]
    unfold KillRing.kill
    split
    · rename_i hl' _
      exact absurd hl' hl
    · rfl

theorem step (h : Mirrors c ops r) (o : Operation) : Mirrors c (ops ++ [o]) (r.step o) := by
  cases o with
  | kill t d =>
    refine ⟨?_, h.kill t d, ?_⟩
    · simp only [KillRing.step, KillRing.kill]
      split <;> exact h.capacity
    · simp only [KillRing.step, KillRing.kill]
      split
      · rename_i hl _
        simp [hl, Operation.isKill]
      · simp [Operation.isKill]
  | copy t =>
    refine ⟨h.capacity, ?_, ?_⟩
    · rw [groups_copy]
      exact h.push t
    · simp [KillRing.step, KillRing.copy, Operation.isKill]
  | breakSequence =>
    refine ⟨h.capacity, ?_, ?_⟩
    · rw [groups_breakSequence]
      exact h.entries
    · simp [KillRing.step, KillRing.breakSequence, Operation.isKill]

end Mirrors

theorem mirrors_run (c : Nat) (ops : List Operation) : Mirrors c ops ((empty c).run ops) := by
  induction ops using List.reverseRecOn with
  | nil => exact ⟨rfl, by simp [groups, run, empty], by simp [run, empty]⟩
  | append_singleton ops o ih =>
    rw [run_concat]
    exact ih.step o

/-- After every history the entries of the ring are the newest groups of the history, as many as the
ring has room for and one at least. So there are never more entries than that, the top is the last
group, and a copied text is a group of its own between those before it and those behind it. -/
theorem entries_run (c : Nat) (ops : List Operation) :
    ((empty c).run ops).entries = (groups ops).take (max c 1) ∧
    ((empty c).run ops).entries.length ≤ max c 1 ∧
    ((empty c).run ops).top? = (groups ops).head? ∧
    ∀ pre t post, ops = pre ++ .copy t :: post →
      ((empty c).run ops).entries = (groups post ++ t :: groups pre).take (max c 1) := by
  have h := (mirrors_run c ops).entries
  refine ⟨h, ?_, ?_, ?_⟩
  · rw [h]
    exact List.length_take_le _ _
  · have hc : max c 1 ≠ 0 := by omega
    rw [top?, h, List.head?_take, if_neg hc]
  · rintro pre t post rfl
    rw [h, groups_copy]

/-- Deletions on both sides of point, a copy, and two deletions with a break between them, in a ring
with room for three. -/
example : ((empty 3).run [.kill ['a'] .forward, .kill ['b'] .backward, .copy ['c'],
    .kill ['d'] .backward, .kill ['e'] .forward, .breakSequence, .kill ['f'] .forward]).entries
      = [['f'], ['d', 'e'], ['c']] := by decide

/-! ## Entries that grow and entries that are closed -/

section

variable {ring r : KillRing} {n : Nat}

theorem kill_of_kill {top : Text} {rest : List Text} (hl : r.latest = some .kill)
    (he : r.entries = top :: rest) (t : Text) (d : Direction) :
    r.kill t d = { r with entries := d.join top t :: rest } := by
  unfold kill
  rw [hl, he]

theorem kill_of_other (hl : r.latest ≠ some .kill) (t : Text) (d : Direction) :
    r.kill t d = { r.push t with latest := some .kill } := by
  unfold kill
  split
  · contradiction
  · rfl

theorem latest_kill (r : KillRing) (t : Text) (d : Direction) :
    (r.kill t d).latest = some .kill := by
  unfold kill
  split
  · assumption
  · rfl

theorem exists_entries_kill (r : KillRing) (t : Text) (d : Direction) :
    ∃ top rest, (r.kill t d).entries = top :: rest := by
  unfold kill
  split <;> exact ⟨_, _, rfl⟩

/-- The newest entry has grown from `top` at its ends, and a deletion would join it. -/
def Grown (top : Text) (rest : List Text) (r : KillRing) : Prop :=
  r.latest = some .kill ∧ ∃ u v, r.entries = (u ++ top ++ v) :: rest

theorem Grown.kill {top : Text} {rest : List Text} (h : r.Grown top rest) (t : Text)
    (d : Direction) : (r.kill t d).Grown top rest := by
  obtain ⟨hl, u, v, he⟩ := h
  refine ⟨latest_kill r t d, ?_⟩
  rw [kill_of_kill hl he]
  cases d with
  | forward => exact ⟨u, v ++ t, by simp [Direction.join]⟩
  | backward => exact ⟨t ++ u, v, by simp [Direction.join]⟩

/-- There is no room for another entry. -/
def Full (r : KillRing) : Prop := 0 < r.capacity ∧ r.entries.length = r.capacity

/-- The ring `r` is `ring` with the entries `news` on top. Of the entries of `ring` the newest,
`old`, are left as they were, and all of them unless `r` is full. -/
structure Above (ring : KillRing) (news old : List Text) (r : KillRing) : Prop where
  capacity : r.capacity = ring.capacity
  entries : r.entries = news ++ old
  left : old <+: ring.entries
  gone : old = ring.entries ∨ r.Full

/-- Since the entries of `ring` were closed at most `n` have come on top of them. A deletion would
join one of these or none. -/
def Sealed (ring : KillRing) (n : Nat) (r : KillRing) : Prop :=
  ∃ news old, Above ring news old r ∧ news.length ≤ n ∧ (r.latest = some .kill → news ≠ [])

theorem Full.push (h : r.Full) (t : Text) : (r.push t).Full := by
  obtain ⟨hc, hl⟩ := h
  refine ⟨hc, ?_⟩
  rw [KillRing.push, if_pos hl]
  simp only [List.length_cons, List.length_dropLast]
  omega

theorem above_refl (ring : KillRing) : Above ring [] ring.entries ring :=
  ⟨rfl, rfl, List.prefix_refl _, .inl rfl⟩

/-- What the newest entry came from does not matter. -/
theorem Above.recall {news old : List Text} (h : Above ring news old r) (l : Option Latest) :
    Above ring news old { r with latest := l } := ⟨h.capacity, h.entries, h.left, h.gone⟩

/-- A new entry takes at most the oldest one away, and only from a full ring. -/
theorem Above.push {news old : List Text} (h : Above ring news old r) (t : Text) :
    ∃ news' old', Above ring (t :: news') old' (r.push t) ∧ news'.length ≤ news.length := by
  by_cases hl : r.entries.length = r.capacity
  · have hp : (r.push t).entries = t :: r.entries.dropLast := by rw [KillRing.push, if_pos hl]
    rw [h.entries] at hp
    by_cases hn : old = []
    · subst hn
      rw [List.append_nil] at hp
      refine ⟨news.dropLast, [], ⟨h.capacity, by simpa using hp, h.left, ?_⟩, by simp⟩
      exact h.gone.imp_right fun hf => hf.push t
    · rw [List.dropLast_append_of_ne_nil hn] at hp
      refine ⟨news, old.dropLast, ⟨h.capacity, hp, (List.dropLast_prefix old).trans h.left, ?_⟩,
        Nat.le_refl _⟩
      have hpos : 0 < r.entries.length := by
        rw [h.entries]
        exact List.length_pos_of_ne_nil (List.append_ne_nil_of_right_ne_nil news hn)
      exact .inr (Full.push ⟨hl ▸ hpos, hl⟩ t)
  · have hp : (r.push t).entries = t :: r.entries := by rw [KillRing.push, if_neg hl]
    refine ⟨news, old, ⟨h.capacity, by rw [hp, h.entries]; rfl, h.left, ?_⟩, Nat.le_refl _⟩
    exact h.gone.imp_right fun hf => hf.push t

/-- A deletion that joins the newest entry changes no other. -/
theorem Above.kill_of_kill {new : Text} {news old : List Text} (h : Above ring (new :: news) old r)
    (hl : r.latest = some .kill) (t : Text) (d : Direction) :
    Above ring (d.join new t :: news) old (r.kill t d) := by
  have he : r.entries = new :: (news ++ old) := h.entries
  rw [KillRing.kill_of_kill hl he]
  refine ⟨h.capacity, rfl, h.left, h.gone.imp_right fun hf => ⟨hf.1, ?_⟩⟩
  rw [← hf.2, he]
  rfl

theorem sealed_breakSequence (r : KillRing) : Sealed r 0 r.breakSequence :=
  ⟨[], r.entries, r.above_refl.recall none, Nat.le_refl 0, nofun⟩

theorem sealed_copy (r : KillRing) (t : Text) : Sealed r 1 (r.copy t) := by
  obtain ⟨news, old, h, hn⟩ := r.above_refl.push t
  exact ⟨t :: news, old, h.recall _, Nat.succ_le_succ hn, by simp⟩

namespace Sealed

theorem mono {m : Nat} (h : Sealed ring n r) (hm : n ≤ m) : Sealed ring m r := by
  obtain ⟨news, old, ha, hn, hk⟩ := h
  exact ⟨news, old, ha, hn.trans hm, hk⟩

/-- A deletion is recorded in an entry that is not one of those that are closed. -/
theorem above_kill (h : Sealed ring n r) (t : Text) (d : Direction) : ∃ new news old,
    Above ring (d.join new t :: news) old (r.kill t d) ∧ news.length ≤ n := by
  obtain ⟨news, old, ha, hn, hk⟩ := h
  by_cases hl : r.latest = some .kill
  · cases news with
    | nil => exact absurd rfl (hk hl)
    | cons new news => exact ⟨new, news, old, ha.kill_of_kill hl t d, Nat.le_of_succ_le hn⟩
  · obtain ⟨news', old', hp, hn'⟩ := ha.push t
    refine ⟨[], news', old', ?_, hn'.trans hn⟩
    have hj : d.join [] t = t := by cases d <;> simp [Direction.join]
    rw [kill_of_other hl, hj]
    exact hp.recall _

theorem kill (h : Sealed ring n r) (t : Text) (d : Direction) :
    Sealed ring (n + 1) (r.kill t d) := by
  obtain ⟨new, news, old, ha, hn⟩ := h.above_kill t d
  exact ⟨_ :: news, old, ha, Nat.succ_le_succ hn, by simp⟩

theorem copy (h : Sealed ring n r) (t : Text) : Sealed ring (n + 1) (r.copy t) := by
  obtain ⟨news, old, ha, hn, -⟩ := h
  obtain ⟨news', old', hp, hn'⟩ := ha.push t
  exact ⟨t :: news', old', hp.recall _, Nat.succ_le_succ (hn'.trans hn), by simp⟩

theorem breakSequence (h : Sealed ring n r) : Sealed ring n r.breakSequence := by
  obtain ⟨news, old, ha, hn, -⟩ := h
  exact ⟨news, old, ha.recall none, hn, nofun⟩

end Sealed

end

end KillRing

end TreeEdit
