import Mathlib.Tactic.Ring

/-!
# Opcodes

The opcodes of `spirv/unified1/spirv.hpp` that the reader names, and the table
`HasResultAndType` over all of them. An opcode is the low half of an instruction's first
word, so it need not be an enumerator.
-/

namespace Brass.Spirv

abbrev opNop : UInt32 := 0

abbrev opSourceContinued : UInt32 := 2

abbrev opSource : UInt32 := 3

abbrev opSourceExtension : UInt32 := 4

abbrev opName : UInt32 := 5

abbrev opMemberName : UInt32 := 6

abbrev opString : UInt32 := 7

abbrev opLine : UInt32 := 8

abbrev opExtension : UInt32 := 10

abbrev opExtInstImport : UInt32 := 11

abbrev opExtInst : UInt32 := 12

abbrev opMemoryModel : UInt32 := 14

abbrev opEntryPoint : UInt32 := 15

abbrev opExecutionMode : UInt32 := 16

abbrev opCapability : UInt32 := 17

abbrev opTypeVoid : UInt32 := 19

abbrev opTypeBool : UInt32 := 20

abbrev opTypeInt : UInt32 := 21

abbrev opTypeFloat : UInt32 := 22

abbrev opTypeVector : UInt32 := 23

abbrev opTypeMatrix : UInt32 := 24

abbrev opTypeImage : UInt32 := 25

abbrev opTypeSampler : UInt32 := 26

abbrev opTypeSampledImage : UInt32 := 27

abbrev opTypeArray : UInt32 := 28

abbrev opTypeRuntimeArray : UInt32 := 29

abbrev opTypeStruct : UInt32 := 30

abbrev opTypeOpaque : UInt32 := 31

abbrev opTypePointer : UInt32 := 32

abbrev opTypeFunction : UInt32 := 33

abbrev opTypeForwardPointer : UInt32 := 39

abbrev opConstantTrue : UInt32 := 41

abbrev opConstantFalse : UInt32 := 42

abbrev opConstant : UInt32 := 43

abbrev opConstantNull : UInt32 := 46

abbrev opSpecConstantTrue : UInt32 := 48

abbrev opSpecConstantFalse : UInt32 := 49

abbrev opSpecConstant : UInt32 := 50

abbrev opSpecConstantOp : UInt32 := 52

abbrev opFunction : UInt32 := 54

abbrev opFunctionParameter : UInt32 := 55

abbrev opFunctionEnd : UInt32 := 56

abbrev opVariable : UInt32 := 59

abbrev opLoad : UInt32 := 61

abbrev opStore : UInt32 := 62

abbrev opCopyMemory : UInt32 := 63

abbrev opArrayLength : UInt32 := 68

abbrev opDecorate : UInt32 := 71

abbrev opMemberDecorate : UInt32 := 72

abbrev opVectorShuffle : UInt32 := 79

abbrev opCompositeExtract : UInt32 := 81

abbrev opCompositeInsert : UInt32 := 82

abbrev opImageSampleImplicitLod : UInt32 := 87

abbrev opImageSampleExplicitLod : UInt32 := 88

abbrev opImageSampleDrefImplicitLod : UInt32 := 89

abbrev opImageSampleDrefExplicitLod : UInt32 := 90

abbrev opImageFetch : UInt32 := 95

abbrev opImageRead : UInt32 := 98

abbrev opImageWrite : UInt32 := 99

abbrev opUConvert : UInt32 := 113

abbrev opSConvert : UInt32 := 114

abbrev opSNegate : UInt32 := 126

abbrev opIAdd : UInt32 := 128

abbrev opISub : UInt32 := 130

abbrev opIMul : UInt32 := 132

abbrev opUDiv : UInt32 := 134

abbrev opSDiv : UInt32 := 135

abbrev opUMod : UInt32 := 137

abbrev opSRem : UInt32 := 138

abbrev opSMod : UInt32 := 139

abbrev opLogicalEqual : UInt32 := 164

abbrev opLogicalNotEqual : UInt32 := 165

abbrev opLogicalOr : UInt32 := 166

abbrev opLogicalAnd : UInt32 := 167

abbrev opLogicalNot : UInt32 := 168

abbrev opSelect : UInt32 := 169

abbrev opIEqual : UInt32 := 170

abbrev opINotEqual : UInt32 := 171

abbrev opUGreaterThan : UInt32 := 172

abbrev opSGreaterThan : UInt32 := 173

abbrev opUGreaterThanEqual : UInt32 := 174

abbrev opSGreaterThanEqual : UInt32 := 175

abbrev opULessThan : UInt32 := 176

abbrev opSLessThan : UInt32 := 177

abbrev opULessThanEqual : UInt32 := 178

abbrev opSLessThanEqual : UInt32 := 179

abbrev opShiftRightLogical : UInt32 := 194

abbrev opShiftRightArithmetic : UInt32 := 195

abbrev opShiftLeftLogical : UInt32 := 196

abbrev opBitwiseOr : UInt32 := 197

abbrev opBitwiseXor : UInt32 := 198

abbrev opBitwiseAnd : UInt32 := 199

abbrev opNot : UInt32 := 200

abbrev opLoopMerge : UInt32 := 246

abbrev opSelectionMerge : UInt32 := 247

abbrev opLabel : UInt32 := 248

abbrev opBranchConditional : UInt32 := 250

abbrev opSwitch : UInt32 := 251

abbrev opNoLine : UInt32 := 317

abbrev opModuleProcessed : UInt32 := 330

abbrev opExecutionModeId : UInt32 := 331

abbrev opDecorateId : UInt32 := 332

abbrev opGroupNonUniformBallotBitCount : UInt32 := 342

abbrev opGroupNonUniformIAdd : UInt32 := 349

abbrev opGroupNonUniformFAdd : UInt32 := 350

abbrev opGroupNonUniformIMul : UInt32 := 351

abbrev opGroupNonUniformFMul : UInt32 := 352

abbrev opGroupNonUniformSMin : UInt32 := 353

abbrev opGroupNonUniformUMin : UInt32 := 354

abbrev opGroupNonUniformFMin : UInt32 := 355

abbrev opGroupNonUniformSMax : UInt32 := 356

abbrev opGroupNonUniformUMax : UInt32 := 357

abbrev opGroupNonUniformFMax : UInt32 := 358

abbrev opGroupNonUniformBitwiseAnd : UInt32 := 359

abbrev opGroupNonUniformBitwiseOr : UInt32 := 360

abbrev opGroupNonUniformBitwiseXor : UInt32 := 361

abbrev opGroupNonUniformLogicalAnd : UInt32 := 362

abbrev opGroupNonUniformLogicalOr : UInt32 := 363

abbrev opGroupNonUniformLogicalXor : UInt32 := 364

abbrev opTypeCooperativeMatrixKHR : UInt32 := 4456

abbrev opCooperativeMatrixLoadKHR : UInt32 := 4457

abbrev opCooperativeMatrixStoreKHR : UInt32 := 4458

abbrev opCooperativeMatrixMulAddKHR : UInt32 := 4459

abbrev opTypeRayQueryKHR : UInt32 := 4472

abbrev opTypeAccelerationStructureKHR : UInt32 := 5341

abbrev opTypeCooperativeMatrixNV : UInt32 := 5358

def inRanges (ranges : List (Nat × Nat)) (op : UInt32) : Bool :=
  ranges.any fun r => decide (r.1 ≤ op.toNat) && decide (op.toNat ≤ r.2)

/-- The opcodes with a result type and a result id. -/
def resultTypeOpcodes : List (Nat × Nat) :=
  [(1, 1), (12, 12), (41, 46), (48, 52), (54, 55), (57, 57), (59, 61), (65, 70), (77, 84),
   (86, 98), (100, 107), (109, 124), (126, 152), (154, 191), (194, 205), (207, 215), (227, 227),
   (229, 242), (245, 245), (259, 259), (261, 271), (274, 279), (282, 286), (291, 296),
   (299, 300), (303, 316), (318, 318), (320, 321), (323, 326), (328, 328), (333, 366),
   (400, 403), (4160, 4162), (4164, 4164), (4166, 4166), (4181, 4181), (4183, 4184),
   (4195, 4195), (4418, 4425), (4427, 4434), (4447, 4447), (4450, 4455), (4457, 4457),
   (4459, 4463), (4477, 4477), (4479, 4483), (4497, 4497), (4500, 4503), (4505, 4505),
   (4540, 4542), (4545, 4545), (5000, 5007), (5011, 5012), (5056, 5056), (5074, 5074),
   (5078, 5078), (5090, 5090), (5101, 5101), (5110, 5111), (5119, 5119), (5126, 5126),
   (5129, 5129), (5147, 5148), (5158, 5159), (5252, 5255), (5257, 5258), (5265, 5265),
   (5267, 5278), (5283, 5283), (5289, 5289), (5292, 5293), (5296, 5296), (5300, 5302),
   (5307, 5308), (5320, 5320), (5322, 5334), (5340, 5340), (5345, 5352), (5359, 5359),
   (5361, 5363), (5366, 5367), (5369, 5369), (5372, 5379), (5381, 5382), (5384, 5384),
   (5390, 5396), (5398, 5398), (5427, 5439), (5571, 5575), (5577, 5577), (5580, 5580),
   (5585, 5598), (5600, 5601), (5610, 5611), (5614, 5615), (5631, 5631), (5699, 5699),
   (5713, 5816), (5818, 5819), (5840, 5843), (5846, 5882), (5923, 5934), (5938, 5938),
   (5949, 5949), (6016, 6032), (6035, 6035), (6116, 6117), (6145, 6145), (6163, 6163),
   (6165, 6165), (6208, 6208), (6237, 6237), (6242, 6242), (6244, 6244), (6251, 6254),
   (6258, 6258), (6401, 6408), (6426, 6426), (6428, 6428), (6529, 6531), (6916, 6918)]

/-- The opcodes with a result id only. -/
def resultOnlyOpcodes : List (Nat × Nat) :=
  [(7, 7), (11, 11), (19, 38), (73, 73), (248, 248), (322, 322), (327, 327), (4163, 4163),
   (4190, 4190), (4417, 4417), (4456, 4456), (4472, 4472), (5076, 5076), (5103, 5104),
   (5115, 5115), (5281, 5281), (5288, 5288), (5313, 5313), (5341, 5341), (5358, 5358),
   (5370, 5371), (5609, 5609), (5700, 5712), (5911, 5913), (6086, 6086), (6199, 6199)]

/-- `HasResultAndType`, the result type: no opcode has one without a result id. -/
def hasResultType (op : UInt32) : Bool := inRanges resultTypeOpcodes op

def hasResult (op : UInt32) : Bool := hasResultType op || inRanges resultOnlyOpcodes op

end Brass.Spirv
