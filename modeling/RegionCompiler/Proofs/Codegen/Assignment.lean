import RegionCompiler.Proofs.Codegen.Calling

/-! Statements that evaluate an expression and go on. Whatever a variable is given, the others hold
what they held before. -/
namespace RegionCompiler.Codegen

open Machine Machine.Instr Semantics Typing

namespace Activation

section Reaching

variable {a : Activation} {n d i e : Nat} {s t : State} {P Q : Nat → State → Prop}
  {R : Word → Prop}

/-- A run leads there and keeps the memory of others, or it is out of memory. -/
def Reaches (a : Activation) (i : Nat) (s : State) (P : Nat → State → Prop) : Prop :=
  a.process.image.Arrives i s fun j t => a.Exhausted j t ∨ a.Stays s t ∧ P j t

theorem Reaches.here (h : P i s) : a.Reaches i s P :=
  Image.Arrives.here (.inr ⟨.refl a s, h⟩)

theorem Reaches.bind (h : a.Reaches i s P) (hnext : ∀ j t, P j t → a.Reaches j t Q) :
    a.Reaches i s Q := by
  refine Image.Arrives.bind h ?_
  rintro j t (hquits | ⟨hstays, hP⟩)
  · exact .here (.inl hquits)
  · exact (hnext j t hP).mono fun _ _ => Or.imp_right (And.imp_left hstays.trans)

theorem Reaches.mono (h : a.Reaches i s P) (hPQ : ∀ j t, P j t → Q j t) : a.Reaches i s Q :=
  h.bind fun j t hP => .here (hPQ j t hP)

theorem Reaches.of_arrives (h : a.process.image.Arrives i s fun j t => a.Stays s t ∧ P j t) :
    a.Reaches i s P :=
  Image.Arrives.mono h fun _ _ => .inr

theorem stays_of_keeps (h : (a.area n).Keeps d s t) : a.Stays s t :=
  stays_of_beyond (beyond_of_keeps (h.mono (Nat.zero_le d)))

theorem stays_of_memory (h : t.memory = s.memory) : a.Stays s t := fun x _ => by rw [h]

theorem Reaches.of_pushes (h : a.process.image.Arrives i s fun j t => j = e ∧
    (a.area n).Pushes d R s t) : a.Reaches i s fun j t => j = e ∧ (a.area n).Pushes d R s t :=
  .of_arrives (h.mono fun _ _ ht => ⟨stays_of_keeps ht.2.kept, ht⟩)

/-- An instruction that writes to no memory. -/
theorem Reaches.step {instr : Instr} (hi : a.process.image.code[i]? = some instr)
    (h : s.effect a.process.image.symbols instr = some t) (hmemory : t.memory = s.memory)
    (hnext : a.Reaches (i + 1) t P) : a.Reaches i s P :=
  Image.Arrives.step (Image.step_effect hi h)
    (Image.Arrives.mono hnext fun _ _ => Or.imp_right
      (And.imp_left (stays_of_memory hmemory).trans))

theorem Reaches.pass (h : a.process.image.Arrives i s fun j t => j = e ∧ t = s)
    (hnext : a.Reaches e s P) : a.Reaches i s P := by
  refine Image.Arrives.bind h ?_
  rintro j t ⟨rfl, rfl⟩
  exact hnext

end Reaching

section Values

variable {a : Activation} {n d i : Nat} {store : Store} {value : Expr} {k : Scalar} {code : Code}
  {s t : State} {x : Int} {sup sup' : Supply} {v : StackVariable} {e : Extent} {dst : Address}
  {p : Int}

theorem value_reaches (hanswers : a.process.Answers a.env.routines a.call a.room a.frames)
    (h : HasType a.decls value k.ty) (hx : eval a.call store value = some x)
    (hrun : exprCode a.env value sup = .ok (code, sup')) (hsits : Sits a.process.image.code i code)
    (hat : (a.area n).At d s) (haligned : 16 ∣ d) (hstored : a.Stored store s)
    (hroom : a.process.low + d + stackOf a.room value ≤ a.bottom) :
    a.Reaches i s fun j t => j = i + code.length ∧ (a.area n).At (d + 16) t ∧ a.Stored store t ∧
      (a.area n).Keeps d s t ∧ k.Fills
        (t.memory.word (a.process.at_ (a.bottom - (d + 16 : Nat)))) x := by
  refine (exprCode_arrives hanswers h hx hrun hsits hat haligned hstored hroom).mono ?_
  rintro j t (hquits | ⟨rfl, hpushes⟩)
  · exact .inl hquits
  have hfills := hpushes.word
  rw [place_area] at hfills
  exact .inr ⟨stays_of_keeps hpushes.kept, rfl, hpushes.at_,
    hstored.congr (beyond_of_keeps (hpushes.kept.mono (Nat.zero_le d))), hpushes.kept, hfills⟩

theorem settle_arrives (hsits : Sits a.process.image.code i (copy dst top k.bytes ++ raise d))
    (hat : (a.area n).At d s) (hd : 8 ≤ d) (hroom : a.process.low + d ≤ a.bottom)
    (hfills : k.Fills (s.memory.word (a.process.at_ (a.bottom - d))) x) (hdst : dst.Avoids .r11)
    (haddress : s.address a.process.image.symbols dst = a.process.at_ p)
    (hlow : a.bottom ≤ p) (hhigh : p + k.bytes ≤ a.process.high) :
    a.process.image.Arrives i s fun j t => j = i + (copy dst top k.bytes ++ raise d).length ∧
      (a.area n).At 0 t ∧ k.Holds t.memory (a.process.at_ p) x ∧
      ∀ y, a.process.Beyond (fun q => p ≤ q ∧ q < p + k.bytes) y → t.memory y = s.memory y := by
  refine (copyTop_arrives hsits.left hat hroom hfills hdst haddress (by omega) hhigh).bind ?_
  rintro _ t ⟨rfl, hat, hholds, hothers⟩
  refine (raise_arrives (d := 0) hsits.right (by rwa [Nat.zero_add])).mono ?_
  rintro _ u ⟨rfl, hat, hmemory, -⟩
  rw [← hmemory] at hholds
  exact ⟨by simp [Nat.add_assoc], hat, hholds, fun y hy => by rw [hmemory, hothers y hy]⟩

theorem Stored.assign (h : a.Stored store s) (hv : v ∈ a.stackVariables) (he : a.env.Occupies v e)
    (hty : v.ty = k.ty) (hx : k.Holds t.memory (a.process.at_ (a.place + e.start)) x)
    (hm : ∀ y, a.process.Beyond (fun q => a.place + e.start ≤ q ∧ q < a.place + e.stop) y →
      t.memory y = s.memory y) : a.Stored (store.set v.mangled x) t := by
  intro u hu f r y hf hr hy
  have hinjective := List.inj_on_of_nodup_map a.prepared.distinct
  by_cases hname : u.mangled = v.mangled
  · obtain rfl : u = v := hinjective hu hv hname
    obtain rfl := occupies_unique he hf
    obtain rfl : k = r := Scalar.ty_inj (hty.symm.trans hr)
    rw [Store.set, if_pos rfl] at hy
    cases hy
    exact hx
  · rw [Store.set, if_neg hname] at hy
    have hapart := occupies_apart hu hv (fun heq => hname (congrArg _ heq)) hf he
    obtain ⟨f', hf', hlow, hhigh, -⟩ := occupied hu
    obtain rfl := occupies_unique hf hf'
    obtain ⟨e', he', -, hhigh', -⟩ := occupied hv
    obtain rfl := occupies_unique he he'
    have hsize := size_of_occupies hf hr
    have hbottom := a.low_le
    refine (h u hu hf hr hy).congr fun m hm' => hm _ ?_
    simp only [Extent.Apart, Extent.stop] at *
    rw [Process.at_add]
    exact Process.beyond_at (by omega) (by omega) fun i hi => ⟨by omega, by omega⟩

theorem assign_reaches (hv : v ∈ a.stackVariables) (he : a.env.Occupies v e) (hty : v.ty = k.ty)
    (hsits : Sits a.process.image.code i (copy dst top k.bytes ++ raise d))
    (hat : (a.area n).At d s) (hd : 8 ≤ d) (hroom : a.process.low + d ≤ a.bottom)
    (hfills : k.Fills (s.memory.word (a.process.at_ (a.bottom - d))) x) (hdst : dst.Avoids .r11)
    (haddress : s.address a.process.image.symbols dst = a.process.at_ (a.place + e.start))
    (hstored : a.Stored store s) :
    a.Reaches i s fun j t => j = i + (copy dst top k.bytes ++ raise d).length ∧
      a.Here n (store.set v.mangled x) t := by
  obtain ⟨e', he', hlow, hhigh, hown⟩ := occupied hv
  obtain rfl := occupies_unique he he'
  have hsize := size_of_occupies he hty
  have hstop : a.place + e.stop = a.place + e.start + k.bytes := by
    rw [Extent.stop, hsize, Int.add_assoc]
  refine .of_arrives ((settle_arrives hsits hat hd hroom hfills hdst haddress hlow
    (by omega)).mono ?_)
  rintro j t ⟨hj, hat, hholds, hothers⟩
  rw [← hstop] at hothers
  exact ⟨fun y hy => hothers y (hy.mono fun q hq => hown q hq.1 hq.2), hj, hat,
    hstored.assign hv he hty hholds hothers⟩

theorem homed {mangled : String} {kind : SymbolKind} (hkind : kind.isStack)
    (hdecl : a.decls.declares ⟨mangled, kind⟩ k.ty) :
    ∃ v ∈ a.stackVariables, ∃ e, v.mangled = mangled ∧ v.ty = k.ty ∧ a.env.Occupies v e := by
  obtain ⟨v, hv, hname, hty⟩ := (a.prepared.onStack hkind).1 hdecl
  obtain ⟨e, he, -⟩ := occupied hv
  exact ⟨v, hv, e, hname, hty, he⟩

end Values

end Activation

end RegionCompiler.Codegen
