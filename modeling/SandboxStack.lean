import SandboxStack.RuntimeContainment
import SandboxStack.IndirectCalls
import SandboxStack.AllocatorSoundness
import SandboxStack.IntegerExpressions
import SandboxStack.ConstantExpressions
import SandboxStack.MemoryRefinement
import SandboxStack.TableInstantiation
import SandboxStack.DataSegments
import SandboxStack.SectionLayout
import SandboxStack.FunctionSplit
import SandboxStack.LiteralText
import SandboxStack.StreamRoundTrip
import SandboxStack.StaticLayout
import SandboxStack.ShapedTrees
import SandboxStack.ValidExpressions
import SandboxStack.IndexSpaces
import SandboxStack.Lp64Preservation
import SandboxStack.ImmediateOperands
import SandboxStack.LocalAlignment
import SandboxStack.StructAssignment
import SandboxStack.StorageLocations
import SandboxStack.LebAgreement
import SandboxStack.IntegerHelpers
import SandboxStack.IntegerConversions
import SandboxStack.FunctionOrder
import SandboxStack.IntegerLiterals
import SandboxStack.ReallocContents
import SandboxStack.InputStream
import SandboxStack.PrintfConversions
import SandboxStack.HashmapRuns
import SandboxStack.NameLiterals
import SandboxStack.CanonicalExpressions
