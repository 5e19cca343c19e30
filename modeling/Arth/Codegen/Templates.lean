import Arth.Codegen.Emission

/-!
# The shapes of the intrinsics' templates

`SpecialPieces` lists the templates `specialIntrinsic` can choose.
-/

namespace Arth.Codegen

open List

variable {g : Gen} {args : List Ir.Value}

theorem argPiece_eq {i : Nat} (h : i < args.length) : ∃ a ∈ args, argPiece args i = [.value a] :=
  ⟨args[i], getElem_mem h, by simp [argPiece, h]⟩

/-- The templates of the intrinsics that depend on more than name and argument count. -/
inductive SpecialPieces (args : List Ir.Value) : List Piece → Prop where
  | sharedNamed (s : String) : SpecialPieces args [.withText .sharedGetByName s, .set]
  | zero : SpecialPieces args [.op (.pushI64 0), .set]
  | print (s : String) : SpecialPieces args [.withText .print s]
  | printVal (a : Ir.Value) : SpecialPieces args [.value a, .op .printTop]
  | printStrVal (a : Ir.Value) (s : String) :
    SpecialPieces args [.intern s, .value a, .withText .printStrVal s]
  | printRaw (s : String) : SpecialPieces args [.withText .printRaw s]
  | printRawStrVal (a : Ir.Value) (s : String) :
    SpecialPieces args [.intern s, .value a, .withText .printRawStrVal s]
  | printLn : SpecialPieces args [.op .printLn]
  | respond (a b c d : Ir.Value) :
    SpecialPieces args
      [.value a, .value b, .value c, .value d, .op (.hostCallNet .httpRespond), .op .pop]
  | logVal (a : Ir.Value) (s t : String) :
    SpecialPieces args
      [.withText .printRaw s, .value a, .withText .printRawStrVal t, .op .printLn]
  | writeln (s : String) : SpecialPieces args [.withText .print s, .op (.pushI64 0), .set]
  | writelnVal (a : Ir.Value) :
    SpecialPieces args [.value a, .op .printTop, .op .printLn, .op (.pushI64 0), .set]
  | spawn (a b : Int64) (n : Nat) :
    SpecialPieces args ([.op (.pushI64 a), .op (.pushI64 b), .op .taskSpawn, .set] ++
      taskArgPieces args n)
  | hostCall (a : Ir.Value) : SpecialPieces args [.value a, .op .hostCallGeneric, .set]

theorem ite_eq_some {α : Type} {c : Prop} [Decidable c] {a e : Option α} {x : α} {P : Prop}
    (h : (if c then a else e) = some x) (hpos : c → a = some x → P) (hneg : e = some x → P) :
    P := by
  by_cases hc : c
  · exact hpos hc ((if_pos hc).symm.trans h)
  · exact hneg ((if_neg hc).symm.trans h)

theorem specialIntrinsic_pieces {name : String} {ps : List Piece}
    (h : specialIntrinsic g name args = some ps) : SpecialPieces args ps := by
  -- one step for each name, in the order of the definition
  refine ite_eq_some h (fun _ h => ?_) fun h => ?_
  · cases hs : args[0]?.bind g.constStr with
    | some s => rw [hs] at h; cases h; exact .sharedNamed s
    | none => rw [hs] at h; cases h; exact .zero
  refine ite_eq_some h (fun _ h => ?_) fun h => ?_
  · cases h
    exact .print _
  refine ite_eq_some h (fun hargs h => ?_) fun h => ?_
  · obtain ⟨a, -, ha⟩ := argPiece_eq (length_pos_iff.2 hargs.2)
    rw [ha] at h
    cases h
    exact .printVal a
  refine ite_eq_some h (fun hargs h => ?_) fun h => ?_
  · obtain ⟨a, -, ha⟩ := argPiece_eq hargs.2
    rw [ha] at h
    cases h
    exact .printStrVal a _
  refine ite_eq_some h (fun _ h => ?_) fun h => ?_
  · cases h
    exact .printRaw _
  refine ite_eq_some h (fun hargs h => ?_) fun h => ?_
  · obtain ⟨a, -, ha⟩ := argPiece_eq hargs.2
    rw [ha] at h
    cases h
    exact .printRawStrVal a _
  refine ite_eq_some h (fun _ h => ?_) fun h => ?_
  · cases h
    exact .printLn
  refine ite_eq_some h (fun hargs h => ?_) fun h => ?_
  · match args, hargs.2 with
    | [a, b, c, d], _ => cases h; exact .respond a b c d
  refine ite_eq_some h (fun _ h => ?_) fun h => ?_
  · cases h
    exact .print _
  refine ite_eq_some h (fun hargs h => ?_) fun h => ?_
  · obtain ⟨a, -, ha⟩ := argPiece_eq (show 4 < args.length from hargs.2)
    rw [ha] at h
    cases h
    exact .logVal a _ _
  refine ite_eq_some h (fun hargs h => ?_) fun h => ?_
  · obtain ⟨a, -, ha⟩ := argPiece_eq (show 0 < args.length by omega)
    cases hs : args[0]?.bind g.constStr with
    | some s => rw [hs] at h; cases h; exact .writeln s
    | none => rw [hs, ha] at h; cases h; exact .writelnVal a
  refine ite_eq_some h (fun _ h => ?_) fun h => ?_
  · cases h
    exact .spawn _ _ _
  refine ite_eq_some h (fun _ h => ?_) fun h => ?_
  · cases h
    exact .zero
  refine ite_eq_some h (fun hargs h => ?_) nofun
  obtain ⟨a, -, ha⟩ := argPiece_eq (show 0 < args.length by omega)
  rw [ha] at h
  cases h
  exact .hostCall a

/-- The templates of a call, after its result's local is bound. -/
inductive CallPieces (g : Gen) (args : List Ir.Value) : List Piece → Prop where
  | plain (name : String) (o : Op) (h : (name, args.length, o) ∈ plainIntrinsics) :
    CallPieces g args (args.map .value ++ [.run o args.length 1, .set])
  | other (name : String) (steps : List IntrinsicStep)
    (h : (name, args.length, steps) ∈ otherIntrinsics) :
    CallPieces g args (steps.flatMap (intrinsicPieces g args))
  | special {ps : List Piece} (h : SpecialPieces args ps) : CallPieces g args ps
  | call (name : String) :
    CallPieces g args (args.map .value ++ [.call name args.length 1, .set])

theorem callTemplate_pieces (ctx : Ctx) (g : Gen) (name : String) (args : List Ir.Value) :
    ∃ ps, callTemplate ctx g name args = .bind :: ps ∧ CallPieces g args ps := by
  unfold callTemplate
  split
  · rename_i e he
    obtain ⟨name', n, o⟩ := e
    have hp := find?_some he
    simp only [Bool.and_eq_true, beq_iff_eq] at hp
    obtain ⟨-, rfl⟩ := hp
    exact ⟨_, rfl, .plain name' o (mem_of_find?_eq_some he)⟩
  split
  · rename_i e he
    obtain ⟨name', n, steps⟩ := e
    have hp := find?_some he
    simp only [Bool.and_eq_true, beq_iff_eq] at hp
    obtain ⟨-, rfl⟩ := hp
    exact ⟨_, rfl, .other name' steps (mem_of_find?_eq_some he)⟩
  split
  · rename_i ps hps
    exact ⟨ps, rfl, .special (specialIntrinsic_pieces hps)⟩
  · exact ⟨_, rfl, .call _⟩

end Arth.Codegen
