import DistributedLock.Cluster.Callers

/-!
# Mutual exclusion

Any number of objects with one key and one list of hosts, their commands interleaved in any way.  The runs
(`Regular`) are those in which every object is used alternately and no key's lifetime runs out.

* `Counted`: the hosts counted by a pass are distinct, and each holds the object's entry;
* `Acting`: the thread about to delete or renew an entry is about to do it to its own;
* `counted_step`: so the counted entries survive every step, but the deletions of their own object's caller;
* `mutual_exclusion`: an object that is held has counted a majority, and two majorities meet.
-/

set_option linter.unusedSectionVars false

namespace DistributedLock.Cluster

open Lib Redis DMutex

/-! ## Entries of an object -/

/-- The hosts `xs` are distinct hosts of the object, and each holds its entry. -/
structure Counted (cfg : Cfg) (srv : Store) (now : ℤ) (xs : List ℤ) : Prop where
  nodup : xs.Nodup
  subset : ∀ h ∈ xs, h ∈ cfg.hosts
  owns : ∀ h ∈ xs, Owns cfg srv now h
  pos : xs ≠ [] → 0 < i32 cfg.lockValidityTime

theorem Counted.nil (cfg : Cfg) (srv : Store) (now : ℤ) : Counted cfg srv now [] :=
  ⟨by simp, by simp, by simp, by simp⟩

theorem Counted.mono {cfg : Cfg} {srv srv' : Store} {now now' : ℤ} {xs : List ℤ} (h : Counted cfg srv now xs)
    (ho : ∀ x ∈ xs, Owns cfg srv now x → Owns cfg srv' now' x) : Counted cfg srv' now' xs :=
  ⟨h.nodup, h.subset, fun x hx => ho x hx (h.owns x hx), h.pos⟩

section Steps

variable {n : ℕ} {now db h : ℤ} {srv : Store} {cfg cfg' : Cfg} {q : DBRedisPc} {op : DBOp} {fault : Fault}

theorem actsOn_of_removes {key : String} (hq : q.command.Removes key) : q.ActsOn := by
  cases q <;> trivial

theorem owns_step_other (hval : cfg'.value ≠ cfg.value) (hkey : cfg'.key = cfg.key)
    (hact : q.ActsOn → Owns cfg srv now db) (ho : Owns cfg' srv now h) :
    Owns cfg' ((dbRedis n).step fault q now db srv).store now h := by
  refine step_holds ho fun hr => ?_
  rintro rfl
  have hown := hact (actsOn_of_removes hr)
  rw [Owns, hkey] at ho
  exact hval (ho.value_eq hown)

/-- Only `DelKeyValue` takes the object's own entry away, if its lifetime is positive. -/
theorem owns_step_self (hin : DBRedisPc.Inside op q) (hop : ∀ key value, op ≠ .delKeyValue key value)
    (hexp : ∀ key value expire, op = .updateExpire key value expire → 0 < i32 expire)
    (ho : Owns cfg srv now h) : Owns cfg ((dbRedis n).step fault q now db srv).store now h := by
  refine step_holds ho fun hr => ?_
  exfalso
  cases op with
  | selectDB index => obtain rfl : q = .select index := hin; exact hr
  | setKeyValue key value expire => obtain rfl : q = .set key value expire := hin; exact hr
  | updateExpire key value expire =>
    have hpos := hexp key value expire rfl
    rcases hin with rfl | rfl | rfl | rfl <;> simp [DBRedisPc.command, Command.Removes] at hr
    omega
  | delKeyValue key value => exact hop key value rfl

end Steps

theorem Counted.snoc {cfg : Cfg} {srv : Store} {now h : ℤ} {xs : List ℤ} (hxs : Counted cfg srv now xs)
    (hh : h ∈ cfg.hosts) (hnew : h ∉ xs) (ho : Owns cfg srv now h) (hpos : 0 < i32 cfg.lockValidityTime) :
    Counted cfg srv now (xs ++ [h]) := by
  refine ⟨?_, fun x hx => ?_, fun x hx => ?_, fun _ => hpos⟩
  · rw [← List.concat_eq_append]
    exact hxs.nodup.concat hnew
  · rcases List.mem_append.mp hx with hx | hx
    · exact hxs.subset x hx
    · rw [List.mem_singleton.mp hx]; exact hh
  · rcases List.mem_append.mp hx with hx | hx
    · exact hxs.owns x hx
    · rw [List.mem_singleton.mp hx]; exact ho

/-! ## The runs -/

variable {n : ℕ} {ι π ω : Type} [DecidableEq ι] [DecidableEq π] [DecidableEq ω] {O : Objects ι π}
  {s s' : State (dbRedis n) ι π ω} {θ : Thread ι ω} {fr : Frame (dbRedis n)} {inp : Input}

/-- Every object is used alternately; the lifetime of no entry runs out; no error reply to a `GET` spells the
value that is asked for.  Commands may fail in every other way. -/
def Regular (s : State (dbRedis n) ι π ω) : Label ι ω → Prop
  | .tick t => ∀ db k e, s.srv.live s.now db k = some e → t ≤ e.expireAt
  | .call i c => Alternates (s.held i) c
  | .keep _ _ => True
  | .act θ (.db fault) => ∀ fr q value, s.thr θ = some fr → fr.db = some q → q.gets value →
      fault.text ≠ some value
  | .act _ _ => True

theorem owns_tick {cfg : Cfg} {t h : ℤ} (hok : Regular s (.tick t : Label ι ω)) (ho : Owns cfg s.srv s.now h) :
    Owns cfg s.srv t h := by
  obtain ⟨e, he, hv⟩ := ho
  exact ⟨e, Store.live_eq_some.mpr ⟨(Store.live_eq_some.mp he).1, hok _ _ _ he⟩, hv⟩

/-! ## The threads about to act -/

/-- A thread at the acting command of `UpdateExpire` or `DelKeyValue` finds the entry of its object. -/
def Acting (O : Objects ι π) (s : State (dbRedis n) ι π ω) : Prop :=
  ∀ θ fr q, s.thr θ = some fr → fr.db = some q → q.ActsOn → Owns (O.cfg θ.obj) s.srv s.now (s.conn θ.obj)

namespace Acting

variable {op : DBOp} {k : DBResult → Pc} {fault : Fault}

theorem of_getD (h : Acting O s) (hfr : s.thr θ = some fr)
    (hq : DBRedisPc.ActsOn (fr.db.getD ((dbRedis n).start op))) :
    Owns (O.cfg θ.obj) s.srv s.now (s.conn θ.obj) := by
  cases hdb : fr.db with
  | none => rw [hdb] at hq; cases op <;> exact hq.elim
  | some q => rw [hdb] at hq; exact h θ fr q hfr hdb hq

theorem owns_other (h : Acting O s) (hO : Contenders O) (hfr : s.thr θ = some fr) {j : ι} (hj : j ≠ θ.obj) {x : ℤ}
    (ho : Owns (O.cfg j) s.srv s.now x) :
    Owns (O.cfg j) (dbStep s θ.obj fr.db op fault).store s.now x :=
  owns_step_other (fun he => hj (hO.value he)) (hO.key _ _) (h.of_getD hfr) ho

theorem frame (h : Acting O s) {x : Option (Frame (dbRedis n))} (hthr : s'.thr = Function.update s.thr θ x)
    (hkeep : ∀ θ' fr q, θ' ≠ θ → s.thr θ' = some fr → fr.db = some q → q.ActsOn →
      Owns (O.cfg θ'.obj) s.srv s.now (s.conn θ'.obj) → Owns (O.cfg θ'.obj) s'.srv s'.now (s'.conn θ'.obj))
    (hx : ∀ fr q, x = some fr → fr.db = some q → q.ActsOn → Owns (O.cfg θ.obj) s'.srv s'.now (s'.conn θ.obj)) :
    Acting O s' := by
  intro θ' fr q h1 h2 h3
  rw [hthr] at h1
  by_cases hθ : θ' = θ
  · subst hθ
    rw [Function.update_self] at h1
    exact hx fr q h1 h2 h3
  · rw [Function.update_of_ne hθ] at h1
    exact hkeep θ' fr q hθ h1 h2 h3 (h θ' fr q h1 h2 h3)

theorem quiet (h : Acting O s) {x : Option Pc}
    (hthr : s'.thr = Function.update s.thr θ (x.map fun pc => ⟨pc, none⟩)) (hsrv : s'.srv = s.srv)
    (hnow : s'.now = s.now) (hconn : s'.conn = s.conn) : Acting O s' := by
  refine h.frame hthr (fun θ' fr q _ _ _ _ ho => by rw [hsrv, hnow, hconn]; exact ho) ?_
  intro fr q h1 h2
  cases x with
  | none => cases h1
  | some pc => cases h1; cases h2

/-- Two threads in the middle of database operations work for different objects. -/
theorem obj_ne (hm : MutexInv O s) (hconn : ConnInv DBRedisPc.Inside O s) {θ' : Thread ι ω}
    {fr' : Frame (dbRedis n)} {q : DBRedisPc} (hne : θ' ≠ θ) (h1 : s.thr θ' = some fr') (h2 : fr'.db = some q)
    (hfr : s.thr θ = some fr) (hc : code (O.cfg θ.obj) (s.fields θ.obj) fr.pc = .call op k) : θ'.obj ≠ θ.obj := by
  intro hj
  obtain ⟨op', hkey, -⟩ := hconn.within θ' fr' q h1 h2
  obtain ⟨host, ht⟩ := Pc.target_of_keyed hkey
  have hown := code_keeps (O.cfg θ.obj) (s.fields θ.obj) fr.pc
  rw [hc] at hown
  exact hne (hm.unique (by rw [hj]) h1 (Pc.owned_of_target ht) hfr hown.1)

theorem act_db (h : Acting O s) (hO : Contenders O) (hm : MutexInv O s) (hconn : ConnInv DBRedisPc.Inside O s)
    (hfr : s.thr θ = some fr) (hc : code (O.cfg θ.obj) (s.fields θ.obj) fr.pc = .call op k)
    {x : Option (Frame (dbRedis n))} (hthr : s'.thr = Function.update s.thr θ x)
    (hsrv : s'.srv = (dbStep s θ.obj fr.db op fault).store) (hnow : s'.now = s.now)
    (hcn : s'.conn = Function.update s.conn θ.obj (dbStep s θ.obj fr.db op fault).db)
    (hx : ∀ fr' q, x = some fr' → fr'.db = some q → q.ActsOn →
      Owns (O.cfg θ.obj) (dbStep s θ.obj fr.db op fault).store s.now (dbStep s θ.obj fr.db op fault).db) :
    Acting O s' := by
  refine h.frame hthr (fun θ' fr' q hne h1 h2 _ ho => ?_) fun fr' q h1 h2 h3 => ?_
  · have hj := obj_ne hm hconn hne h1 h2 hfr hc
    rw [hsrv, hnow, hcn, Function.update_of_ne hj]
    exact h.owns_other hO hfr hj ho
  · rw [hsrv, hnow, hcn, Function.update_self]
    exact hx fr' q h1 h2 h3

/-- A thread that has come to its acting command has found the entry of its object. -/
theorem owns_more (hconn : ConnInv DBRedisPc.Inside O s) (hfr : s.thr θ = some fr)
    (hok : Regular s (.act θ (.db fault)))
    (hc : code (O.cfg θ.obj) (s.fields θ.obj) fr.pc = .call op k) {q : DBRedisPc}
    (hr : (dbStep s θ.obj fr.db op fault).resp = .more q) (hq : q.ActsOn) :
    Owns (O.cfg θ.obj) (dbStep s θ.obj fr.db op fault).store s.now (dbStep s θ.obj fr.db op fault).db := by
  have hin := hconn.inside_getD (dbRedis_lawful n) hfr hc
  obtain ⟨hin', hop⟩ := (dbRedis_lawful n).more hin hr
  have hdb : (dbStep s θ.obj fr.db op fault).db = s.conn θ.obj := (dbRedis_lawful n).db hin hop
  have hgets : ∀ v, (fr.db.getD ((dbRedis n).start op)).gets v → fault.text ≠ some v := by
    intro v hv
    cases hfdb : fr.db with
    | none => rw [hfdb] at hv; cases op <;> exact hv.elim
    | some q₀ => rw [hfdb] at hv; exact hok fr q₀ v hfr hfdb hv
  have hold := step_actsOn hgets hr hq
  have hkv : q.key = (O.cfg θ.obj).key ∧ q.value = (O.cfg θ.obj).value := by
    rcases code_call hc with ⟨index, rfl⟩ | ⟨_, _, _, rfl⟩ | ⟨_, _, _, _, _, rfl⟩ | ⟨_, _, _, rfl⟩
    · exact absurd rfl (hop index)
    · obtain rfl := hin'; exact hq.elim
    · rcases hin' with rfl | rfl | rfl <;> exact ⟨rfl, rfl⟩
    · rcases hin' with rfl | rfl | rfl | rfl <;> exact ⟨rfl, rfl⟩
  rw [hdb, Owns, ← hkv.1, ← hkv.2]
  exact hold

theorem step (h : Acting O s) (hO : Contenders O) (hm : MutexInv O s) (hconn : ConnInv DBRedisPc.Inside O s)
    {l : Label ι ω} (hok : Regular s l) (hs : next O s l = some s') : Acting O s' := by
  rcases next_cases hs with ⟨t, rfl, ht, rfl⟩ | ⟨i, c, rfl, hn, rfl⟩ | ⟨i, w, rfl, hn, rfl⟩ | ⟨θ, inp, rfl, ha⟩
  · intro θ fr q h1 h2 h3
    exact owns_tick (s := s) hok (h θ fr q h1 h2 h3)
  · exact h.quiet (θ := .caller i) (x := some c.entry) rfl rfl rfl rfl
  · exact h.quiet (θ := .worker i w) (x := some .keepLock) rfl rfl rfl rfl
  · obtain ⟨fr, hfr, ha⟩ := act_cases ha
    cases ha with
    | @more op k fault q hc hr =>
      refine h.act_db hO hm hconn hfr hc rfl rfl rfl rfl ?_
      rintro _ _ ⟨⟩ ⟨⟩ hq
      exact owns_more hconn hfr hok hc hr hq
    | done hc hr => exact h.act_db hO hm hconn hfr hc rfl rfl rfl rfl (by rintro _ _ ⟨⟩ ⟨⟩)
    | raise hc hr => exact h.act_db hO hm hconn hfr hc rfl rfl rfl rfl (by rintro _ _ ⟨⟩)
    | ret hc => exact h.quiet (x := none) rfl rfl rfl rfl
    | throw hc => exact h.quiet (x := none) rfl rfl rfl rfl
    | tau hc => exact h.quiet (x := some _) rfl rfl rfl rfl
    | lock hc hfree => exact h.quiet (x := some _) rfl rfl rfl rfl
    | unlock hc => exact h.quiet (x := some _) rfl rfl rfl rfl
    | clock hc => exact h.quiet (x := some _) rfl rfl rfl rfl
    | shuffle hc hv => exact h.quiet (x := some _) rfl rfl rfl rfl
    | pushEvent hc => exact h.quiet (x := some _) rfl rfl rfl rfl

theorem of_reach (hO : Contenders O) (h : (system O (dbRedis n) ω).Reach Regular s) : Acting O s :=
  h.invariant (I := Acting O) (fun t h₀ θ fr q h1 => by simp [h₀.thr θ] at h1) fun t l t' hr hi hok hn =>
    hi.step hO (.of_reach hr) (.of_reach (dbRedis_lawful n) hr) hok hn

end Acting

/-! ## The counted entries -/

section Counted

variable (hO : Contenders O) (hact : Acting O s) (hkind : KindInv s) (hconn : ConnInv DBRedisPc.Inside O s)
include hO hact hkind hconn

/-- **The counted entries of an object survive every step**, unless it is its caller that deletes them. -/
theorem counted_step {l : Label ι ω} (hok : Regular s l) (hs : next O s l = some s') {j : ι}
    (hdel : ¬ Deleting s j) {xs : List ℤ} (hxs : Counted (O.cfg j) s.srv s.now xs) :
    Counted (O.cfg j) s'.srv s'.now xs := by
  rcases next_srv hs with ⟨t, rfl, -, hnow, hsrv, -⟩ | ⟨hnow, hsrv, -⟩ |
    ⟨θ, fr, fault, op, k, rfl, hfr, hc, hnow, hsrv, -⟩
  · rw [hnow, hsrv]
    exact hxs.mono fun x _ => owns_tick hok
  · rw [hnow, hsrv]
    exact hxs
  · rw [hnow, hsrv]
    by_cases hj : j = θ.obj
    · subst hj
      refine hxs.mono fun x hx => ?_
      refine owns_step_self (hconn.inside_getD (dbRedis_lawful n) hfr hc) (not_del hkind hfr hc hdel) ?_
      rintro key value expire rfl
      have hpos := hxs.pos (List.ne_nil_of_mem hx)
      rcases code_call hc with ⟨_, h⟩ | ⟨_, _, _, h⟩ | ⟨_, _, _, _, _, h⟩ | ⟨_, _, _, h⟩ <;> cases h
      exact hpos
    · exact hxs.mono fun x _ => hact.owns_other hO hfr hj

theorem counted_set {j : ι} {fault : Fault} (hok : Regular s (.act (.caller j) (.db fault)))
    (hs : next O s (.act (.caller j) (.db fault)) = some s') :
    CallersOk.Sets O (fun s i _ => Counted (O.cfg i) s.srv s.now) s s' j fault := by
  intro fr c p hfr hpc hr hnow hsrv hold hperm hlt
  have hsel : s.conn j = p.host := hconn.selected (.caller j) fr p.host hfr (by rw [hpc]; rfl)
  have hxs := counted_step hO hact hkind hconn hok hs (not_deleting_of_passing hfr (by rw [hpc]; rfl)) hold
  have hin := hconn.inside_getD (θ := .caller j) (dbRedis_lawful n) hfr (by rw [hpc]; rfl)
  have hq : fr.db.getD ((dbRedis n).start (.setKeyValue (O.cfg j).key (O.cfg j).value (O.cfg j).lockValidityTime)) =
      .set (O.cfg j).key (O.cfg j).value (O.cfg j).lockValidityTime := hin
  simp only [setStep, dbStep, hq, hsel] at hr hsrv
  obtain ⟨hpos, hnone, hstore⟩ := step_set_succeed hr
  refine hxs.snoc (hperm.subset (Pass.host_mem hlt)) (fun hmem => ?_) ?_ hpos
  · obtain ⟨e, he, -⟩ := hold.owns _ hmem
    rw [hnone] at he
    cases he
  · rw [hsrv, hstore, hnow]
    exact Store.Holds.put ⟨_, _⟩ (by simp only; omega)

end Counted

/-! ## The objects that are held -/

/-- An object that is held is in no method, and has counted a majority of its hosts. -/
def HeldInv (O : Objects ι π) (s : State (dbRedis n) ι π ω) : Prop :=
  ∀ i, s.held i = true → s.thr (.caller i) = none ∧
    Counted (O.cfg i) s.srv s.now (s.fields i).haveLockNum ∧
    quorum (O.cfg i).hosts.length ≤ (s.fields i).haveLockNum.length

structure Inv (O : Objects ι π) (s : State (dbRedis n) ι π ω) : Prop where
  acting : Acting O s
  callers : CallersOk O (fun s i _ => Counted (O.cfg i) s.srv s.now) s
  held : HeldInv O s

namespace Inv

theorem step_held (h : Inv O s) (hO : Contenders O) (hkind : KindInv s) (hconn : ConnInv DBRedisPc.Inside O s)
    {l : Label ι ω} (hok : Regular s l) (hs : next O s l = some s') : HeldInv O s' := by
  intro i hi
  have hC : ¬ Deleting s i → ∀ xs, Counted (O.cfg i) s.srv s.now xs → Counted (O.cfg i) s'.srv s'.now xs :=
    fun hdel _ => counted_step hO h.acting hkind hconn hok hs hdel
  rcases next_held hkind hs hi with ⟨hi', hl⟩ | ⟨fr, hfr, hpc, hthr, hf⟩
  · obtain ⟨hthr, hcnt, hq⟩ := h.held i hi'
    have hidle : ∀ c, l ≠ .call i c := by
      rintro c rfl
      cases c with
      | unlock => exact hl rfl
      | tryLock => exact hok.elim
      | lock => rw [show s.held i = false from hok] at hi'; cases hi'
      | tryLockFor e => rw [show s.held i = false from hok] at hi'; cases hi'
    obtain ⟨hthr', hf⟩ := next_idle hkind hs hthr hidle
    rw [hf]
    exact ⟨hthr', hC (not_deleting_of_none hthr) _ hcnt, hq⟩
  · have hcall := h.callers i fr hfr
    rw [hpc] at hcall
    obtain ⟨_, hcnt, hq⟩ := hcall
    rw [hf]
    exact ⟨hthr, hC (not_deleting_of_passing hfr (by rw [hpc]; rfl)) _ hcnt, hq⟩

theorem step (h : Inv O s) (hO : Contenders O) (hm : MutexInv O s) (hkind : KindInv s)
    (hconn : ConnInv DBRedisPc.Inside O s) {l : Label ι ω} (hok : Regular s l) (hs : next O s l = some s') :
    Inv O s' := by
  refine ⟨h.acting.step hO hm hconn hok hs, ?_, h.step_held hO hkind hconn hok hs⟩
  refine h.callers.step hkind hs (fun i => ⟨fun h => h, fun _ h => h⟩) ?_ ?_ ?_ ?_
  · intro j p xs hcnt hxs
    exact counted_step hO h.acting hkind hconn hok hs hcnt.not_deleting hxs
  · intro i t v _ _
    exact Counted.nil _ _ _
  · rintro i fault rfl
    exact counted_set hO h.acting hkind hconn hok hs
  · rintro i rfl
    exact hok.elim

theorem of_reach (hO : Contenders O) (h : (system O (dbRedis n) ω).Reach Regular s) : Inv O s := by
  refine h.invariant (I := Inv O) (fun t h₀ => ?_) fun t l t' hr hi hok hn =>
    hi.step hO (.of_reach hr) (.of_reach hr) (.of_reach (dbRedis_lawful n) hr) hok hn
  exact ⟨fun θ fr q h1 => by simp [h₀.thr θ] at h1, .init h₀, fun i h1 => by simp [h₀.held i] at h1⟩

theorem majority (h : Inv O s) {i : ι} (hi : s.held i = true) :
    Majority (O.cfg i).hosts (s.fields i).haveLockNum := by
  obtain ⟨-, hc, hq⟩ := h.held i hi
  exact ⟨hc.nodup, hc.subset, hq⟩

theorem eq_of_held (h : Inv O s) (hO : Rivals O) {i j : ι} (hi : s.held i = true) (hj : s.held j = true) : i = j := by
  have hmi := h.majority hi
  have hmj := h.majority hj
  rw [hO.hosts j i] at hmj
  obtain ⟨x, hx, hx'⟩ := hmi.inter hmj
  -- the database they share holds the entry of both
  have h1 := (h.held i hi).2.1.owns x hx
  have h2 := (h.held j hj).2.1.owns x hx'
  rw [Owns, hO.key j i] at h2
  exact hO.value (h1.value_eq h2)

end Inv

/-- **Mutual exclusion.**  In every run in which each object is used alternately and no lifetime runs out, for
every interleaving of the commands and every shuffle, two objects are never both held. -/
theorem mutual_exclusion (hO : Rivals O) (h : (system O (dbRedis n) ω).Reach Regular s) {i j : ι}
    (hi : s.held i = true) (hj : s.held j = true) : i = j :=
  (Inv.of_reach hO.toContenders h).eq_of_held hO hi hj

def regular (s : State (dbRedis n) ι π ω) : Label ι ω → Bool
  | .call i .lock => !s.held i
  | .act _ (.db .none) => true
  | .act _ (.db _) => false
  | .act _ _ => true
  | _ => false

theorem regular_of_test (s : State (dbRedis n) ι π ω) (l : Label ι ω) (h : regular s l = true) : Regular s l := by
  unfold regular at h
  split at h <;> simp_all [Regular, Alternates, Fault.text]

/-- The attempt of the second object fails while the first one is held. -/
theorem mutual_exclusion_two : ∃ s : State (dbRedis 16) Bool Unit Unit,
    (system (twoObjects [0, 1, 2]) (dbRedis 16) Unit).Reach Regular s ∧ s.held false = true ∧
      (∃ fr c, s.thr (.caller true) = some fr ∧ fr.pc = .failed c) ∧ s.held true = false := by
  obtain ⟨s, hr, hs⟩ := Machine.exists_reach (system (twoObjects [0, 1, 2]) (dbRedis 16) Unit)
    (lockPass false [2, 0, 1] 5 ++ accept false 7 ++ refused true [1, 0, 2] 8)
    (fun s => s.held false && hasFailed true s) regular_of_test State.blank_initial (by decide)
  rw [Bool.and_eq_true] at hs
  refine ⟨s, hr, hs.1, hasFailed_iff hs.2, ?_⟩
  by_contra hne
  have heq := mutual_exclusion (twoObjects_rivals _) hr hs.1 (j := true) (by simpa using hne)
  cases heq

end DistributedLock.Cluster
