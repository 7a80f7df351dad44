import TftpHpa.Lib.CommonPrefix
import TftpHpa.Client.Settings

/-! Which words `getcmd` (`tftp/main.c`) takes for a command, and the suggestion that it makes for a
word that is none. The name of a command in the table has the part that may be left out in
brackets. -/

namespace TftpHpa

/-! ### Names -/

/-- The part of a name that may not be left out. -/
def required (pattern : Bytes) : Bytes := pattern.takeWhile (· ≠ 91)

/-- The whole name of a command. -/
def fullName (pattern : Bytes) : Bytes := pattern.filter fun q => q ≠ 91 ∧ q ≠ 93

/-- A word is the beginning of a name, with at least what is required of it. -/
structure Abbreviates (word pattern : Bytes) : Prop where
  required : required pattern <+: word.map asciiTolower
  fullName : word.map asciiTolower <+: fullName pattern

/-- Characters other than brackets. -/
def Plainly (seg : Bytes) : Prop := ∀ q ∈ seg, q ≠ 91 ∧ q ≠ 93

/-- The name of a command is written with one pair of brackets at its end, or with none. -/
def Bracketed (pattern req opt : Bytes) : Prop :=
  (Plainly req ∧ Plainly opt) ∧ (pattern = req ∧ opt = [] ∨ pattern = req ++ 91 :: (opt ++ [93]))

/-! ### One entry -/

@[simp] theorem getcmdScan_nil (p : Bytes) (ok : Bool) (metric : ℕ) :
    getcmdScan p [] ok metric = (decide (p = []), metric) := by
  cases p <;> rfl

@[simp] theorem getcmdScan_close (p qs : Bytes) (ok : Bool) (metric : ℕ) :
    getcmdScan p (93 :: qs) ok metric = (decide (p = []), metric) := by
  cases p <;> rfl

@[simp] theorem getcmdScan_open (p qs : Bytes) (ok : Bool) (metric : ℕ) :
    getcmdScan p (91 :: qs) ok metric = getcmdScan p qs true metric := by
  cases p <;> rfl

theorem getcmdScan_append {p seg rest : Bytes} {ok : Bool} {metric : ℕ} (hseg : Plainly seg)
    (hp : seg <+: p.map asciiTolower) :
    getcmdScan p (seg ++ rest) ok metric = getcmdScan (p.drop seg.length) rest ok (metric + seg.length) := by
  induction seg generalizing p metric with
  | nil => rfl
  | cons q seg ih =>
    obtain ⟨hq, hseg⟩ := List.forall_mem_cons.mp hseg
    cases p with
    | nil => simp at hp
    | cons c p =>
      rw [List.map_cons, List.cons_prefix_cons] at hp
      rw [List.cons_append, getcmdScan, if_neg hq.2, if_neg hq.1, if_neg (not_not.mpr hp.1.symm), ih hseg hp.2,
        List.length_cons, List.drop_succ_cons, Nat.add_right_comm, Nat.add_assoc]

/-- A part of the name that the word does not reach the end of. -/
theorem getcmdScan_mismatch {p seg : Bytes} (hseg : Plainly seg) (hp : ¬ seg <+: p.map asciiTolower) (rest : Bytes)
    (ok : Bool) (metric : ℕ) :
    getcmdScan p (seg ++ rest) ok metric =
      (decide (p.map asciiTolower <+: seg) && ok, metric + (commonPrefix (p.map asciiTolower) seg).length) := by
  induction seg generalizing p metric with
  | nil => exact absurd List.nil_prefix hp
  | cons q seg ih =>
    obtain ⟨hq, hseg⟩ := List.forall_mem_cons.mp hseg
    cases p with
    | nil => simp [getcmdScan, hq.1, hq.2]
    | cons c p =>
      rw [List.cons_append, getcmdScan, if_neg hq.2, if_neg hq.1]
      rw [List.map_cons, List.cons_prefix_cons, not_and] at hp
      by_cases hc : asciiTolower c = q
      · rw [if_neg (not_not.mpr hc), ih hseg (hp hc.symm)]
        simp [commonPrefix, hc, Nat.add_assoc, Nat.add_comm 1]
      · simp [commonPrefix, hc]

/-- A list that begins with another one is a beginning of it only if nothing is left. -/
theorem append_prefix_iff {α : Type*} {as rest : List α} : as ++ rest <+: as ↔ rest = [] := by
  have h : as ++ rest <+: as ++ [] ↔ rest <+: [] := List.prefix_self_append_iff
  rwa [List.append_nil, List.prefix_nil] at h

section

variable {pattern req opt : Bytes}

/-- A part of the name that has to be there to its end. -/
theorem getcmdScan_of_prefix (hreq : Plainly req) {word rest tail : Bytes} (hword : word.map asciiTolower = req ++ tail)
    {ok : Bool} (metric : ℕ) :
    ∃ word', word'.map asciiTolower = tail ∧
      getcmdScan word (req ++ rest) ok metric = getcmdScan word' rest ok (metric + req.length) := by
  refine ⟨word.drop req.length, ?_, getcmdScan_append hreq ⟨tail, hword.symm⟩⟩
  rw [List.map_drop, hword, List.drop_left]

/-- Behind the bracket every beginning is accepted. -/
theorem getcmdScan_optional (hopt : Plainly opt) (word : Bytes) (metric : ℕ) :
    getcmdScan word (opt ++ [93]) true metric = (decide (word.map asciiTolower <+: opt),
      metric + (commonPrefix (word.map asciiTolower) opt).length) := by
  by_cases hp : opt <+: word.map asciiTolower
  · obtain ⟨tail, htail⟩ := hp
    obtain ⟨word', rfl, hscan⟩ := getcmdScan_of_prefix hopt htail.symm metric
    rw [hscan, getcmdScan_close, ← htail, commonPrefix_append_left, Prod.mk.injEq, decide_eq_decide,
      append_prefix_iff, List.map_eq_nil_iff]
    exact ⟨Iff.rfl, rfl⟩
  · rw [getcmdScan_mismatch hopt hp, Bool.and_true]

/-- What the loop over an entry finds. -/
theorem getcmdScan_eq (h : Bracketed pattern req opt) (word : Bytes) :
    getcmdScan word pattern false 0 =
      (decide (req <+: word.map asciiTolower ∧ word.map asciiTolower <+: req ++ opt),
        (commonPrefix (word.map asciiTolower) (req ++ opt)).length) := by
  obtain ⟨⟨hreq, hopt⟩, hpattern⟩ := h
  by_cases hp : req <+: word.map asciiTolower
  · obtain ⟨tail, htail⟩ := hp
    rcases hpattern with ⟨rfl, rfl⟩ | rfl
    · obtain ⟨word', rfl, hscan⟩ := getcmdScan_of_prefix hreq htail.symm 0
      rw [List.append_nil] at hscan
      rw [hscan, getcmdScan_nil, ← htail, List.append_nil, commonPrefix_append_left]
      simp [append_prefix_iff]
    · obtain ⟨word', rfl, hscan⟩ := getcmdScan_of_prefix hreq htail.symm 0
      rw [hscan, getcmdScan_open, getcmdScan_optional hopt, ← htail, commonPrefix_append_append, List.length_append]
      simp
  · have hscan (rest : Bytes) := getcmdScan_mismatch hreq hp rest false 0
    rw [Bool.and_false, Nat.zero_add] at hscan
    have hnone : ¬ (req <+: word.map asciiTolower ∧ word.map asciiTolower <+: req ++ opt) := fun h => hp h.1
    rw [decide_eq_false hnone, commonPrefix_append_of_not_prefix hp]
    rcases hpattern with ⟨rfl, rfl⟩ | rfl
    · have := hscan []
      rwa [List.append_nil] at this
    · exact hscan _

end

/-! ### The table -/

/-- The word is accepted for an entry. -/
def accepts (word : Bytes) (cmd : Bytes × Handler) : Bool := (getcmdScan word cmd.1 false 0).1

/-- The number of characters that are found in an entry. -/
def metric (word : Bytes) (cmd : Bytes × Handler) : ℕ := (getcmdScan word cmd.1 false 0).2

section

variable {word : Bytes} {best cmd : Bytes × Handler} {bestMetric : ℤ} {table : List (Bytes × Handler)}

theorem getcmdLoop_cons (word : Bytes) (best : Bytes × Handler) (bestMetric : ℤ) (cmd : Bytes × Handler)
    (table : List (Bytes × Handler)) :
    getcmdLoop word best bestMetric (cmd :: table) =
      if accepts word cmd then .ok cmd
      else if bestMetric < metric word cmd then getcmdLoop word cmd (metric word cmd) table
      else getcmdLoop word best bestMetric table := rfl

/-- The first entry that accepts the word is found. -/
theorem getcmdLoop_ok (h : getcmdLoop word best bestMetric table = .ok cmd) : cmd ∈ table ∧ accepts word cmd := by
  induction table generalizing best bestMetric with
  | nil => cases h
  | cons c table ih =>
    rw [getcmdLoop_cons] at h
    split_ifs at h with hc hbest
    · obtain rfl := Except.ok.inj h
      exact ⟨List.mem_cons_self, hc⟩
    · exact ⟨List.mem_cons_of_mem c (ih h).1, (ih h).2⟩
    · exact ⟨List.mem_cons_of_mem c (ih h).1, (ih h).2⟩

/-- Without one, the suggestion is the best of what was there and the table. -/
theorem getcmdLoop_error (h : getcmdLoop word best bestMetric table = .error cmd) :
    (∀ c ∈ table, accepts word c = false ∧ (metric word c : ℤ) ≤ max bestMetric (metric word cmd)) ∧
      (cmd = best ∨ cmd ∈ table ∧ bestMetric < metric word cmd) := by
  induction table generalizing best bestMetric with
  | nil =>
    obtain rfl := Except.error.inj h
    exact ⟨by simp, .inl rfl⟩
  | cons c table ih =>
    rw [getcmdLoop_cons] at h
    split_ifs at h with hc hbest
    · obtain ⟨hall, hcmd⟩ := ih h
      have hle : (metric word c : ℤ) ≤ metric word cmd := by
        rcases hcmd with rfl | ⟨-, hlt⟩
        · exact le_rfl
        · exact hlt.le
      refine ⟨List.forall_mem_cons.mpr ⟨⟨Bool.not_eq_true _ ▸ hc, le_max_of_le_right hle⟩, fun d hd => ?_⟩, ?_⟩
      · exact ⟨(hall d hd).1, le_max_of_le_right ((hall d hd).2.trans (max_le hle le_rfl))⟩
      · rcases hcmd with rfl | ⟨hmem, -⟩
        · exact .inr ⟨List.mem_cons_self, hbest⟩
        · exact .inr ⟨List.mem_cons_of_mem c hmem, hbest.trans_le hle⟩
    · obtain ⟨hall, hcmd⟩ := ih h
      refine ⟨List.forall_mem_cons.mpr ⟨⟨Bool.not_eq_true _ ▸ hc, le_max_of_le_left (not_lt.mp hbest)⟩, hall⟩, ?_⟩
      rcases hcmd with rfl | ⟨hmem, hlt⟩
      · exact .inl rfl
      · exact .inr ⟨List.mem_cons_of_mem c hmem, hlt⟩

end

/-! ### The commands -/

/-- What is in the brackets of a name. -/
def optional (pattern : Bytes) : Bytes := (fullName pattern).drop (required pattern).length

theorem bracketed_cmdtab : ∀ cmd ∈ cmdtab, Bracketed cmd.1 (required cmd.1) (optional cmd.1) ∧
    fullName cmd.1 = required cmd.1 ++ optional cmd.1 := by
  unfold Bracketed Plainly
  decide +kernel

/-- The part of a name that may not be left out tells it from all others. -/
theorem required_cmdtab : cmdtab.Pairwise fun cmd cmd' =>
    ¬ (required cmd.1 <+: fullName cmd'.1 ∧ required cmd'.1 <+: fullName cmd.1) := by
  decide +kernel

section

variable {word : Bytes} {cmd : Bytes × Handler}

theorem accepts_iff (hcmd : cmd ∈ cmdtab) : accepts word cmd = true ↔ Abbreviates word cmd.1 := by
  obtain ⟨hpattern, hname⟩ := bracketed_cmdtab cmd hcmd
  rw [accepts, getcmdScan_eq hpattern, ← hname, decide_eq_true_iff]
  exact ⟨fun h => ⟨h.1, h.2⟩, fun h => ⟨h.1, h.2⟩⟩

theorem metric_eq (hcmd : cmd ∈ cmdtab) :
    metric word cmd = (commonPrefix (word.map asciiTolower) (fullName cmd.1)).length := by
  obtain ⟨hpattern, hname⟩ := bracketed_cmdtab cmd hcmd
  rw [metric, getcmdScan_eq hpattern, ← hname]

/-- No word stands for two commands. -/
theorem accepts_cmdtab (word : Bytes) :
    cmdtab.Pairwise fun cmd cmd' => ¬ (accepts word cmd ∧ accepts word cmd') := by
  refine required_cmdtab.imp_of_mem fun {cmd cmd'} hcmd hcmd' hapart => ?_
  rintro ⟨h, h'⟩
  rw [accepts_iff hcmd] at h
  rw [accepts_iff hcmd'] at h'
  exact hapart ⟨h.required.trans h'.fullName, h'.required.trans h.fullName⟩

theorem eq_of_accepts {cmd' : Bytes × Handler} (hcmd : cmd ∈ cmdtab) (hcmd' : cmd' ∈ cmdtab)
    (h : accepts word cmd = true) (h' : accepts word cmd' = true) : cmd = cmd' := by
  have hsymm : Std.Symm fun cmd cmd' => ¬ (accepts word cmd ∧ accepts word cmd') :=
    ⟨fun _ _ hnot hand => hnot hand.symm⟩
  by_contra hne
  exact (accepts_cmdtab word).forall hcmd hcmd' hne ⟨h, h'⟩

end

/-- `getcmd` accepts the abbreviations of a command and no other word, wherever the command
stands in the table. What it suggests for another word shares with it as much as any command
does. -/
theorem getcmd_exact (word : Bytes) :
    (∀ table : List (Bytes × Handler), table.Perm cmdtab → ∀ cmd,
      getcmdIn table word = .ok cmd ↔ cmd ∈ cmdtab ∧ Abbreviates word cmd.1) ∧
    (cmdtab.Pairwise fun cmd cmd' => ¬ (accepts word cmd ∧ accepts word cmd')) ∧
    ∀ cmd, getcmdIn cmdtab word = .error cmd → cmd ∈ cmdtab ∧ ∀ cmd' ∈ cmdtab, ∀ pre,
      pre <+: word.map asciiTolower → pre <+: fullName cmd'.1 → pre <+: fullName cmd.1 := by
  refine ⟨fun table htable cmd => ⟨fun h => ?_, fun ⟨hcmd, hword⟩ => ?_⟩, accepts_cmdtab word, fun cmd h => ?_⟩
  · obtain ⟨hmem, hok⟩ := getcmdLoop_ok h
    have hcmd := htable.mem_iff.mp hmem
    exact ⟨hcmd, (accepts_iff hcmd).mp hok⟩
  · have hok := (accepts_iff hcmd).mpr hword
    cases hrun : getcmdIn table word with
    | ok cmd' =>
      obtain ⟨hmem, hok'⟩ := getcmdLoop_ok hrun
      rw [eq_of_accepts hcmd (htable.mem_iff.mp hmem) hok hok']
    | error cmd' =>
      have hnone := ((getcmdLoop_error hrun).1 cmd (htable.mem_iff.mpr hcmd)).1
      rw [hok] at hnone
      cases hnone
  · obtain ⟨hall, hcmd⟩ := getcmdLoop_error h
    have hmem : cmd ∈ cmdtab := by
      rcases hcmd with rfl | ⟨hmem, -⟩
      · exact List.mem_cons_self
      · exact hmem
    refine ⟨hmem, fun cmd' hmem' pre hword hname => ?_⟩
    have hle := (hall cmd' hmem').2
    have hpre := length_le_commonPrefix hword hname
    rw [metric_eq hmem, metric_eq hmem'] at hle
    have hlen : pre.length ≤ (commonPrefix (word.map asciiTolower) (fullName cmd.1)).length := by omega
    have hshare := List.prefix_of_prefix_length_le hword (commonPrefix_left _ _) hlen
    exact hshare.trans (commonPrefix_right _ _)

end TftpHpa
