/-! The words of the language that are not identifiers: reserved words, truth values, keywords, type
names, and the names of known extensions. -/

namespace ShaderUplift.Lexing

/-- Words kept for later use; none may appear in a shader. -/
def reservedWords : List String :=
  ["common", "partition", "active", "asm", "class", "union", "enum", "typedef", "template", "this",
   "resource", "goto", "inline", "noinline", "public", "static", "extern", "external", "interface",
   "long", "short", "half", "fixed", "unsigned", "superp", "input", "output", "filter", "sizeof",
   "cast", "namespace", "using", "defined"]

def truthValues : List String := ["true", "false"]

def keywords : List String :=
  ["const", "uniform", "buffer", "shared", "attribute", "varying", "coherent", "volatile",
   "restrict", "readonly", "writeonly", "layout", "centroid", "flat", "smooth", "noperspective",
   "patch", "sample", "invariant", "precise", "break", "continue", "do", "for", "while", "switch",
   "case", "default", "if", "else", "subroutine", "in", "out", "inout", "discard", "return", "lowp",
   "mediump", "highp", "precision", "struct"]

/-- Every first part followed by every second part. -/
def joined (firsts seconds : List String) : List String :=
  firsts.flatMap fun a => seconds.map fun b => a ++ b

def dimensions : List String := ["2", "3", "4"]

def textureShapes : List String :=
  ["1D", "2D", "3D", "Cube", "1DArray", "2DArray", "CubeArray", "2DRect", "2DMS", "2DMSArray",
   "Buffer"]

def shadowShapes : List String :=
  ["1D", "2D", "Cube", "1DArray", "2DArray", "CubeArray", "2DRect"]

def typeNames : List String :=
  ["void", "bool", "int", "uint", "float", "double", "atomic_uint"] ++
  joined ["vec", "ivec", "bvec", "uvec", "dvec"] dimensions ++
  joined ["mat", "dmat"] (dimensions ++ joined dimensions (joined ["x"] dimensions)) ++
  joined ["sampler", "isampler", "usampler", "image", "iimage", "uimage"] textureShapes ++
  joined ["sampler"] (joined shadowShapes ["Shadow"])

def extensionNames : List String :=
  ["GL_3DL_array_objects", "GL_AMD_gpu_shader_int16"] ++
  joined ["GL_ARB_"]
    ["compute_shader", "derivative_control", "enhanced_layouts", "explicit_attrib_location",
     "explicit_uniform_location", "gpu_shader5", "gpu_shader_fp64", "gpu_shader_int64",
     "sample_shading", "separate_shader_objects", "shader_bit_encoding", "shader_draw_parameters",
     "shader_image_load_store", "shader_image_size", "shader_storage_buffer_object",
     "shader_texture_image_samples", "shader_texture_lod", "shading_language_420pack",
     "shading_language_include", "shading_language_packing", "sparse_texture2",
     "tessellation_shader", "texture_cube_map_array", "texture_gather", "texture_multisample",
     "texture_query_lod", "texture_rectangle", "uniform_buffer_object", "vertex_attrib_64bit",
     "viewport_array"] ++
  joined ["GL_EXT_"]
    ["YUV_target", "blend_func_extended", "control_flow_attributes", "device_group", "frag_depth",
     "geometry_shader", "gpu_shader5", "multiview", "nonuniform_qualifier", "null_initializer",
     "primitive_bounding_box", "ray_flags_primitive_culling", "ray_query",
     "samplerless_texture_functions", "shader_explicit_arithmetic_types",
     "shader_explicit_arithmetic_types_float16", "shader_explicit_arithmetic_types_float32",
     "shader_explicit_arithmetic_types_float64", "shader_explicit_arithmetic_types_int16",
     "shader_explicit_arithmetic_types_int32", "shader_explicit_arithmetic_types_int64",
     "shader_explicit_arithmetic_types_int8", "shader_implicit_conversions", "shader_integer_mix",
     "shader_io_blocks", "shader_non_constant_global_initializers", "shader_texture_image_samples",
     "shader_texture_lod", "terminate_invocation", "tessellation_shader", "texture_buffer",
     "texture_cube_map_array"] ++
  ["GL_GOOGLE_include_directive", "GL_GOOGLE_cpp_style_line_directive",
   "GL_KHR_blend_equation_advanced"] ++
  joined ["GL_KHR_shader_subgroup_"]
    ["arithmetic", "ballot", "basic", "clustered", "quad", "shuffle", "shuffle_relative", "vote"] ++
  ["GL_NV_mesh_shader", "GL_NV_ray_tracing", "GL_NV_shader_noperspective_interpolation",
   "GL_NV_shader_sm_builtins", "GL_NV_shader_subgroup_partitioned"] ++
  joined ["GL_OES_"]
    ["EGL_image_external", "EGL_image_external_essl3", "geometry_point_size", "geometry_shader",
     "gpu_shader5", "primitive_bounding_box", "sample_variables", "shader_image_atomic",
     "shader_io_blocks", "shader_multisample_interpolation", "standard_derivatives",
     "tessellation_point_size", "tessellation_shader", "texture_buffer", "texture_cube_map_array",
     "texture_3D", "texture_storage_multisample_2d_array"] ++
  ["GL_OVR_multiview", "GL_OVR_multiview2"]

end ShaderUplift.Lexing
